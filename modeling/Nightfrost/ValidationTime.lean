import Nightfrost.LedgerUtxos

namespace Nightfrost.ValidationTime

open ByteOrder Domain WriteBlock ExceptFold LedgerEvents BlockRun IndexBlock LedgerFacade LedgerUtxos
  Pipeline

variable {L : Type}

/-- The ledger that finds a transaction well-formed, or not, at another time than the one
it is given. -/
def validatedAt (time : Bytes → ByteArr 32 → Nat → Nat → Nat) (libs : LedgerLibs L) : LedgerLibs L :=
  { libs with
    applyRegularTransaction := fun ledger raw parentHash blockTimestamp parentTimestamp _ =>
      libs.applyRegularTransaction ledger raw parentHash blockTimestamp parentTimestamp
        (time raw parentHash blockTimestamp parentTimestamp) }

/-- The ledger without the bump: each transaction is validated at the time of its block. -/
def atBlockTime (libs : LedgerLibs L) : LedgerLibs L :=
  validatedAt (fun _ _ blockTimestamp _ => blockTimestamp) libs

/-- The time decides whether a transaction is malformed, and nothing else. -/
def OnlyValidates (libs : LedgerLibs L) : Prop :=
  ∀ {ledger raw parentHash ts parentTs t r},
    libs.applyRegularTransaction ledger raw parentHash ts parentTs t = .ok r → ∀ t',
      libs.applyRegularTransaction ledger raw parentHash ts parentTs t' = .ok r ∨
        ∃ message, libs.applyRegularTransaction ledger raw parentHash ts parentTs t' =
          .error (.malformedTransaction message)

section Facade

variable {m : CostModel} {S S8 S9 : Type}

/-- The check has the same result whenever it passes. -/
def MerelyValidates (crate : LedgerCrate m S) : Prop :=
  ∀ {state tx t t' verified verified'}, crate.wellFormed state tx t = .ok verified →
    crate.wellFormed state tx t' = .ok verified' → verified' = verified

theorem applyRegularTransaction_time {crate : LedgerCrate m S} (hcrate : MerelyValidates crate)
    {name : String} {fees : S → CrateTransaction → SyntheticCost → Except String Nat}
    {makeEvents : List (Event crate.lib) → Except String (List LedgerEvent)} {filled : Filled S}
    {raw : Bytes} {parentHash : ByteArr 32} {ts parentTs t : Nat}
    {r : ApplyRegularTransactionOutcome × Filled S}
    (h : applyRegularTransaction crate name fees makeEvents filled raw parentHash ts parentTs t = .ok r)
    (t' : Nat) :
    applyRegularTransaction crate name fees makeEvents filled raw parentHash ts parentTs t' = .ok r ∨
      ∃ message, applyRegularTransaction crate name fees makeEvents filled raw parentHash ts parentTs t' =
        .error (.malformedTransaction message) := by
  obtain ⟨tx, htx, h⟩ := bind_ok.mp h
  obtain ⟨cost, hcost, h⟩ := bind_ok.mp h
  obtain ⟨paid, hpaid, h⟩ := bind_ok.mp h
  obtain ⟨verified, hverified, h⟩ := bind_ok.mp h
  cases hother : crate.wellFormed filled.1 tx (timestamp t') with
  | error message =>
      refine .inr ⟨message, bind_error.mpr (.inr ⟨tx, htx, ?_⟩)⟩
      refine bind_error.mpr (.inr ⟨cost, hcost, bind_error.mpr (.inr ⟨paid, hpaid, ?_⟩)⟩)
      refine bind_error.mpr (.inl ?_)
      rw [hother]
      rfl
  | ok verified' =>
      obtain rfl := hcrate (malformed_ok.mp hverified) hother
      left
      refine bind_ok.mpr ⟨tx, htx, bind_ok.mpr ⟨cost, hcost, bind_ok.mpr ⟨paid, hpaid, ?_⟩⟩⟩
      exact bind_ok.mpr ⟨verified', malformed_ok.mpr hother, h⟩

theorem ledgerLibs_onlyValidates {v8 : LedgerCrate m S8} {v9 : LedgerCrate m S9}
    (h8 : MerelyValidates v8) (h9 : MerelyValidates v9) {sha256 : Bytes → ByteArr 32}
    {contractBalances : Bytes → LedgerVersion → Option (List ContractBalance)} :
    OnlyValidates (ledgerLibs v8 v9 sha256 contractBalances) := by
  intro ledger raw parentHash ts parentTs t r h t'
  cases ledger with
  | v8 filled =>
      obtain ⟨applied, happlied, h⟩ := bind_ok.mp h
      rcases applyRegularTransaction_time h8 happlied t' with hsame | ⟨message, hmalformed⟩
      · exact .inl (bind_ok.mpr ⟨applied, hsame, h⟩)
      · exact .inr ⟨message, bind_error.mpr (.inl hmalformed)⟩
  | v9 filled =>
      obtain ⟨applied, happlied, h⟩ := bind_ok.mp h
      rcases applyRegularTransaction_time h9 happlied t' with hsame | ⟨message, hmalformed⟩
      · exact .inl (bind_ok.mpr ⟨applied, hsame, h⟩)
      · exact .inr ⟨message, bind_error.mpr (.inl hmalformed)⟩

end Facade

section Replay

variable {libs : LedgerLibs L} {time : Bytes → ByteArr 32 → Nat → Nat → Nat} {block : Block} {ledger : L}

theorem applyRegular_time (hlibs : OnlyValidates libs) {tx : RegularTransaction} {parentTs : Nat}
    {bump bump' : Bool} {r r' : ApplyRegularTransactionOutcome × L}
    (h : applyRegular (validatedAt time libs) ledger tx block parentTs bump = .ok r)
    (h' : applyRegular libs ledger tx block parentTs bump' = .ok r') : r' = r := by
  obtain ⟨_, happly⟩ := applyRegular_ok h
  obtain ⟨t, happly'⟩ := applyRegular_ok h'
  rcases hlibs happly t with hsame | ⟨message, hmalformed⟩
  · exact Except.ok.inj (happly'.symm.trans hsame)
  · rw [happly'] at hmalformed
    cases hmalformed

theorem applyRegular_atBlockTime (hlibs : OnlyValidates libs) {tx : RegularTransaction} {parentTs : Nat}
    {bump bump' : Bool} {r : ApplyRegularTransactionOutcome × L}
    (h : applyRegular (atBlockTime libs) ledger tx block parentTs bump = .ok r) :
    applyRegular libs ledger tx block parentTs bump' = .ok r := by
  obtain ⟨_, happly⟩ := applyRegular_ok h
  have hplain : libs.applyRegularTransaction ledger tx.raw block.parentHash block.timestamp parentTs
      block.timestamp = .ok r := happly
  rw [applyRegular]
  cases bump' with
  | false => exact context_ok.mpr hplain
  | true =>
      simp only [if_true]
      rcases hlibs hplain ((parentTs + mempoolTblockBumpMillis) % 2 ^ 64) with hsame | ⟨message, hmalformed⟩
      · rw [hsame]
      · rw [hmalformed]
        exact context_ok.mpr hplain

theorem replayTransaction_time (hlibs : OnlyValidates libs) {parentTs : Nat} {transaction : Transaction}
    {replay r r' : Replay L}
    (h : replayTransaction (validatedAt time libs) block parentTs replay transaction = .ok r)
    (h' : replayTransaction libs block parentTs replay transaction = .ok r') : r' = r := by
  obtain ⟨⟨applied, next⟩, happly, h⟩ := bind_ok.mp h
  obtain ⟨⟨applied', next'⟩, happly', h'⟩ := bind_ok.mp h'
  have hsame : (applied', next') = (applied, next) := by
    cases transaction with
    | regular tx =>
        obtain ⟨outcome, hregular, happly⟩ := bind_ok.mp happly
        obtain ⟨outcome', hregular', happly'⟩ := bind_ok.mp happly'
        obtain rfl := applyRegular_time hlibs hregular hregular'
        exact Except.ok.inj (happly'.symm.trans happly)
    | system tx => exact Except.ok.inj (happly'.symm.trans happly)
  obtain ⟨rfl, rfl⟩ := Prod.mk.inj hsame
  exact Except.ok.inj (h'.symm.trans h)

theorem replayTransaction_atBlockTime (hlibs : OnlyValidates libs) {parentTs : Nat}
    {transaction : Transaction} {replay r : Replay L}
    (h : replayTransaction (atBlockTime libs) block parentTs replay transaction = .ok r) :
    replayTransaction libs block parentTs replay transaction = .ok r := by
  obtain ⟨applied, happly, h⟩ := bind_ok.mp h
  refine bind_ok.mpr ⟨applied, ?_, h⟩
  cases transaction with
  | regular tx =>
      obtain ⟨outcome, hregular, happly⟩ := bind_ok.mp happly
      exact bind_ok.mpr ⟨outcome, applyRegular_atBlockTime hlibs hregular, happly⟩
  | system tx => exact happly

variable {genesisLedgerState : Option Bytes} {parentTs : Nat} {r r' : List AppliedTransaction × L × Nat}

theorem replayBlock_time (hlibs : OnlyValidates libs)
    (h : replayBlock (validatedAt time libs) block genesisLedgerState ledger parentTs = .ok r)
    (h' : replayBlock libs block genesisLedgerState ledger parentTs = .ok r') : r' = r := by
  obtain ⟨states, hstates, h⟩ := bind_ok.mp h
  obtain ⟨states', hstates', h'⟩ := bind_ok.mp h'
  obtain rfl : states' = states := Except.ok.inj (hstates'.symm.trans hstates)
  obtain ⟨replay, hloop, h⟩ := bind_ok.mp h
  obtain ⟨replay', hloop', h'⟩ := bind_ok.mp h'
  obtain rfl := foldlM_agree (fun _ _ _ _ => replayTransaction_time hlibs) hloop hloop'
  exact Except.ok.inj (h'.symm.trans h)

theorem replayBlock_atBlockTime (hlibs : OnlyValidates libs)
    (h : replayBlock (atBlockTime libs) block genesisLedgerState ledger parentTs = .ok r) :
    replayBlock libs block genesisLedgerState ledger parentTs = .ok r := by
  obtain ⟨states, hstates, h⟩ := bind_ok.mp h
  obtain ⟨replay, hloop, h⟩ := bind_ok.mp h
  have hplain := foldlM_mono (fun _ _ _ => replayTransaction_atBlockTime hlibs) hloop
  exact bind_ok.mpr ⟨states, hstates, bind_ok.mpr ⟨replay, hplain, h⟩⟩

end Replay

section Chains

variable {libs : LedgerLibs L} {time : Bytes → ByteArr 32 → Nat → Nat → Nat} {genesisLedgerState : Bytes}
  {blocks : List Block} {p p' : Progress L}

theorem indexed_time (hlibs : OnlyValidates libs)
    (h : indexed (validatedAt time libs) genesisLedgerState blocks = .ok p)
    (h' : indexed libs genesisLedgerState blocks = .ok p') : p' = p := by
  obtain ⟨ledger, hnew, h⟩ := bind_ok.mp h
  obtain ⟨ledger', hnew', h'⟩ := bind_ok.mp h'
  obtain rfl : ledger' = ledger := Except.ok.inj (hnew'.symm.trans hnew)
  refine foldlM_agree ?_ h h'
  intro block p q q' h h'
  obtain ⟨replayed, hreplay, h⟩ := bind_ok.mp h
  obtain ⟨replayed', hreplay', h'⟩ := bind_ok.mp h'
  obtain rfl := replayBlock_time hlibs (stop_ok.mp hreplay) (stop_ok.mp hreplay')
  exact Except.ok.inj (h'.symm.trans h)

theorem indexed_atBlockTime (hlibs : OnlyValidates libs)
    (h : indexed (atBlockTime libs) genesisLedgerState blocks = .ok p) :
    indexed libs genesisLedgerState blocks = .ok p := by
  obtain ⟨ledger, hnew, h⟩ := bind_ok.mp h
  refine bind_ok.mpr ⟨ledger, hnew, foldlM_mono ?_ h⟩
  intro block p q h
  obtain ⟨replayed, hreplay, h⟩ := bind_ok.mp h
  exact bind_ok.mpr ⟨replayed, stop_ok.mpr (replayBlock_atBlockTime hlibs (stop_ok.mp hreplay)), h⟩

variable {m : CostModel} {S8 S9 : Type} {v8 : LedgerCrate m S8} {v9 : LedgerCrate m S9}

/-- The bump of the validation time never changes what the indexer comes to: not where
any other times let the chain pass too, and no chain fails for it that passes at the
times of its blocks. -/
theorem bump_only_validates (h8 : MerelyValidates v8) (h9 : MerelyValidates v9)
    (sha256 : Bytes → ByteArr 32)
    (contractBalances : Bytes → LedgerVersion → Option (List ContractBalance))
    (genesisLedgerState : Bytes) (blocks : List Block) :
    (∀ time p p',
      indexed (validatedAt time (ledgerLibs v8 v9 sha256 contractBalances)) genesisLedgerState blocks =
        .ok p →
      indexed (ledgerLibs v8 v9 sha256 contractBalances) genesisLedgerState blocks = .ok p' → p' = p) ∧
    ∀ p, indexed (atBlockTime (ledgerLibs v8 v9 sha256 contractBalances)) genesisLedgerState blocks =
        .ok p →
      indexed (ledgerLibs v8 v9 sha256 contractBalances) genesisLedgerState blocks = .ok p :=
  ⟨fun _ _ _ => indexed_time (ledgerLibs_onlyValidates h8 h9),
    fun _ => indexed_atBlockTime (ledgerLibs_onlyValidates h8 h9)⟩

end Chains

section Plain

def validUntil (t : Nat) (transaction : CrateTransaction) : Except String CrateTransaction :=
  if t ≤ 5 then .ok transaction else .error "expired"

def expiringCrate : LedgerCrate plainModel PlainState :=
  { plainCrate with wellFormed := fun _ transaction t => validUntil t transaction }

theorem expiringCrate_validates : MerelyValidates expiringCrate := by
  intro state tx t t' verified verified' h h'
  have hsame : ∀ {t verified}, validUntil t tx = .ok verified → verified = tx := by
    intro t verified h
    rw [validUntil] at h
    split at h
    · exact (Except.ok.inj h).symm
    · cases h
  exact (hsame h').trans (hsame h).symm

theorem block_time_lt_u64 : (4000 : Nat) < 2 ^ 64 := by decide

/-- The treasury pays in the genesis block, and the block after it passes the payment on
in time, if just. -/
def plainChain : List Block :=
  [{ emptyBlock 0 zero_lt_u64 with
      ledgerStateRoot := some [1]
      transactions := [.system ⟨.filled 32 1, .v1_0 1000000, []⟩] },
    { emptyBlock 1 one_lt_u64 with
      timestamp := 4000
      timestamp_lt := block_time_lt_u64
      transactions := [.regular ⟨.filled 32 2, .v1_0 1000000, [], [], []⟩] }]

theorem bump_only_validates_plain : ∃ p,
    indexed (atBlockTime (ledgerLibs expiringCrate expiringCrate (fun _ => .filled 32 0) fun _ _ => none))
      [] plainChain = .ok p ∧
    indexed (ledgerLibs expiringCrate expiringCrate (fun _ => .filled 32 0) fun _ _ => none) [] plainChain =
      .ok p := by
  obtain ⟨p, hp⟩ := exists_ok (x := indexed (atBlockTime (ledgerLibs expiringCrate expiringCrate
    (fun _ => .filled 32 0) fun _ _ => none)) [] plainChain) (by decide +kernel)
  exact ⟨p, hp, (bump_only_validates expiringCrate_validates expiringCrate_validates _ _ _ _).2 p hp⟩

end Plain

end Nightfrost.ValidationTime
