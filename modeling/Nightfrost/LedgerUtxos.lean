import Nightfrost.CoinLedger
import Nightfrost.LedgerFacade
import Nightfrost.Pipeline
import Nightfrost.UtxoSet

namespace Nightfrost.LedgerUtxos

open ByteOrder Tables Partitions Domain Schema WriteBlock Staging ExceptFold CoinHistory CoinLedger
  BlockStep BlockRun IndexBlock UtxoSet LedgerFacade

def outpoint (utxo : LedgerUtxo) : Bytes := utxoKey utxo.intentHash utxo.outputNo

def ledgerUtxo (utxo : UnshieldedUtxo) : LedgerUtxo where
  value := utxo.value
  owner := utxo.owner
  tokenType := utxo.tokenType
  intentHash := utxo.intentHash
  outputNo := utxo.outputIndex
  value_lt := utxo.value_lt
  outputNo_lt := utxo.outputIndex_lt

variable {m : CostModel} {S : Type}

section Phases

variable (crate : LedgerCrate m S)

def phaseOf (segment : Nat) (intent : Intent) (guaranteed : Bool) : Phase LedgerUtxo where
  inputs := (if guaranteed then intent.guaranteedInputs else intent.fallibleInputs).map (spentUtxo crate)
  outputs := (if guaranteed then intent.guaranteedOutputs else intent.fallibleOutputs).zipIdx.map
    (createdUtxo (intent.intentHash segment))

/-- The phases of a transaction that the ledger applies: the guaranteed phase of every
intent, and the fallible phases of the segments that succeed. -/
def appliedPhases (transaction : StandardTransaction) (result : TransactionResult) :
    List (Phase LedgerUtxo) :=
  transaction.segments.flatMap fun segment =>
    if segment = 0 then transaction.intents.map fun entry => phaseOf crate segment entry.2 true
    else
      ((transaction.intents.lookup segment).toList.filter
        fun _ => decide (segment ∈ successfulSegments transaction result)).map
          fun intent => phaseOf crate segment intent false

/-- What the ledger's UTXO set goes through. -/
structure CrateLaws (coins : S → Coins Bytes LedgerUtxo) : Prop where
  new : coins crate.new = Coins.empty
  failed : ∀ {state tx ts verified cx state'}, crate.wellFormed state tx ts = .ok verified →
    crate.apply state verified cx = (state', .failure) → coins state' = coins state
  standard : ∀ {state tx ts verified cx state' result},
    crate.wellFormed state (.standard tx) ts = .ok verified →
    crate.apply state verified cx = (state', result) → (splitResult result).1 ≠ .failure →
    AppliesAll outpoint (coins state) (appliedPhases crate tx (splitResult result).1) (coins state')
  claimRewards : ∀ {state claim ts verified cx state' result},
    crate.wellFormed state (.claimRewards claim) ts = .ok verified →
    crate.apply state verified cx = (state', result) → (splitResult result).1 ≠ .failure →
    Applies outpoint (coins state) ⟨[], [claimedUtxo crate claim]⟩ (coins state')
  pay : ∀ {state outputs tokenType ts state' events},
    crate.applySystemTx state (.payFromTreasuryUnshielded outputs tokenType) ts = .ok (state', events) →
    Applies outpoint (coins state) ⟨[], outputs.zipIdx.map (paidUtxo crate tokenType)⟩ (coins state')
  system : ∀ {state payload ts state' events},
    crate.applySystemTx state (.other payload) ts = .ok (state', events) → coins state' = coins state
  postBlockUpdate : ∀ {state ts fullness overall state'},
    crate.postBlockUpdate state ts fullness overall = .ok state' → coins state' = coins state

variable {crate} {state : S} {utxos : List UnshieldedUtxo × List UnshieldedUtxo}

def moved (utxos : List UnshieldedUtxo × List UnshieldedUtxo) : List LedgerUtxo × List LedgerUtxo :=
  (utxos.1.map ledgerUtxo, utxos.2.map ledgerUtxo)

def extend (moves : List LedgerUtxo × List LedgerUtxo) (phases : List (Phase LedgerUtxo)) :
    List LedgerUtxo × List LedgerUtxo :=
  (moves.1 ++ phases.flatMap Phase.outputs, moves.2 ++ phases.flatMap Phase.inputs)

theorem extend_append (moves : List LedgerUtxo × List LedgerUtxo) (phases more : List (Phase LedgerUtxo)) :
    extend moves (phases ++ more) = extend (extend moves phases) more := by
  simp [extend]

theorem extend_nil (moves : List LedgerUtxo × List LedgerUtxo) : extend moves [] = moves := by
  simp [extend]

theorem moved_extend (segment : Nat) (intent : Intent) (guaranteed : Bool) :
    moved (extendUnshieldedUtxos crate state utxos segment intent guaranteed) =
      extend (moved utxos) [phaseOf crate segment intent guaranteed] := by
  simp only [moved, extend, extendUnshieldedUtxos, phaseOf, List.map_append, List.map_map,
    List.flatMap_cons, List.flatMap_nil, List.append_nil]
  rfl

theorem moved_guaranteed (segment : Nat) (intents : List (Nat × Intent)) :
    moved (intents.foldl
        (fun utxos entry => extendUnshieldedUtxos crate state utxos segment entry.2 true) utxos) =
      extend (moved utxos) (intents.map fun entry => phaseOf crate segment entry.2 true) := by
  induction intents generalizing utxos with
  | nil => exact (extend_nil _).symm
  | cons entry intents ih =>
      rw [List.foldl_cons, ih, moved_extend, List.map_cons]
      exact (extend_append (moved utxos) [phaseOf crate segment entry.2 true] _).symm

/-- The facade reports the UTXOs of the phases that the ledger applies, in order. -/
theorem moved_standard (transaction : StandardTransaction) (result : TransactionResult)
    (segments : List Nat) :
    moved (segments.foldl (extendBySegment crate state transaction result) utxos) =
      extend (moved utxos) (segments.flatMap fun segment =>
        if segment = 0 then transaction.intents.map fun entry => phaseOf crate segment entry.2 true
        else
          ((transaction.intents.lookup segment).toList.filter
            fun _ => decide (segment ∈ successfulSegments transaction result)).map
              fun intent => phaseOf crate segment intent false) := by
  induction segments generalizing utxos with
  | nil => exact (extend_nil _).symm
  | cons segment segments ih =>
      rw [List.foldl_cons, ih, List.flatMap_cons, extend_append]
      congr 1
      rw [extendBySegment]
      by_cases hzero : segment = 0
      · rw [if_pos hzero, if_pos hzero, moved_guaranteed]
      · rw [if_neg hzero, if_neg hzero]
        cases transaction.intents.lookup segment with
        | none => exact (extend_nil _).symm
        | some intent =>
            by_cases hmem : segment ∈ successfulSegments transaction result
            · simp [hmem, moved_extend]
            · simp [hmem, extend_nil]

end Phases

section Steps

variable {crate : LedgerCrate m S} {coins : S → Coins Bytes LedgerUtxo} {filled filled' : Filled S}

def Recorded (coins coins' : Coins Bytes LedgerUtxo) (created spent : List UnshieldedUtxo) : Prop :=
  Batched outpoint coins (created.map ledgerUtxo) (spent.map ledgerUtxo) coins'

theorem recorded_nothing (coins : Coins Bytes LedgerUtxo) : Recorded coins coins [] [] :=
  ⟨List.nodup_nil, by simp, List.nodup_nil, by simp, by simp, by simp⟩

theorem recorded_one {coins coins' : Coins Bytes LedgerUtxo} {outputs : List LedgerUtxo}
    {created : List UnshieldedUtxo} (h : Applies outpoint coins ⟨[], outputs⟩ coins')
    (hcreated : created.map ledgerUtxo = outputs) (hkept : WellKept outpoint coins) :
    Recorded coins coins' created [] := by
  have hbatch := (AppliesAll.cons h (.nil _)).batched hkept
  rw [Recorded, hcreated]
  simpa using hbatch

theorem recorded_regular (hlaws : CrateLaws crate coins) {name : String}
    {fees : S → CrateTransaction → SyntheticCost → Except String Nat}
    {makeEvents : List (LedgerEvents.Event crate.lib) → Except String (List LedgerEvent)} {raw : Bytes}
    {parentBlockHash : ByteArr 32} {ts parentTs wellFormedTs : Nat}
    {outcome : ApplyRegularTransactionOutcome} (hkept : WellKept outpoint (coins filled.1))
    (h : applyRegularTransaction crate name fees makeEvents filled raw parentBlockHash ts parentTs
      wellFormedTs = .ok (outcome, filled')) :
    Recorded (coins filled.1) (coins filled'.1) outcome.createdUnshieldedUtxos
      outcome.spentUnshieldedUtxos := by
  obtain ⟨tx, verified, result, hverified, happly, hresult, hutxos⟩ := applyRegularTransaction_applied h
  by_cases hfailed : (splitResult result).1 = .failure
  · rw [hfailed, utxos_failed, Prod.mk.injEq] at hutxos
    have hcoins : coins filled'.1 = coins filled.1 := by
      cases result with
      | failure => exact hlaws.failed hverified happly
      | success events => cases hfailed
      | partialSuccess segments events => cases hfailed
    rw [hutxos.1, hutxos.2, hcoins]
    exact recorded_nothing _
  · cases tx with
    | standard tx =>
        have hall := (hlaws.standard hverified happly hfailed).batched hkept
        have hmoved := @moved_standard m S crate filled'.1 ([], []) tx (splitResult result).1 tx.segments
        rw [utxos_standard hfailed] at hutxos
        rw [← hutxos, moved, extend, Prod.mk.injEq] at hmoved
        rw [Recorded, hmoved.1, hmoved.2]
        exact hall
    | claimRewards claim =>
        rw [utxos_claimRewards hfailed] at hutxos
        obtain ⟨hcreated, hspent⟩ := Prod.mk.inj hutxos
        rw [hcreated, hspent]
        exact recorded_one (hlaws.claimRewards hverified happly hfailed) rfl hkept

theorem recorded_system (hlaws : CrateLaws crate coins) {name : String}
    {makeEvents : List (LedgerEvents.Event crate.lib) → Except String (List LedgerEvent)} {raw : Bytes}
    {ts : Nat} {outcome : ApplySystemTransactionOutcome} (hkept : WellKept outpoint (coins filled.1))
    (h : applySystemTransaction crate name makeEvents filled raw ts = .ok (outcome, filled')) :
    Recorded (coins filled.1) (coins filled'.1) outcome.createdUnshieldedUtxos [] := by
  obtain ⟨tx, -, h⟩ := bind_ok.mp h
  obtain ⟨⟨state', events⟩, happly, h⟩ := bind_ok.mp h
  rw [other_ok] at happly
  obtain ⟨made, -, h⟩ := bind_ok.mp h
  obtain ⟨rfl, rfl⟩ := Prod.mk.inj (Except.ok.inj h)
  cases tx with
  | payFromTreasuryUnshielded outputs tokenType =>
      refine recorded_one (hlaws.pay happly) ?_ hkept
      rw [makeUnshieldedUtxosForSystemTransaction, List.map_map]
      rfl
  | other payload =>
      have hsame : coins state' = coins filled.1 := hlaws.system happly
      simp only [hsame]
      exact recorded_nothing _

theorem finalize_coins (hlaws : CrateLaws crate coins) {ts : Nat}
    (h : finalizeApplyTransactions crate filled ts = .ok filled') :
    coins filled'.1 = coins filled.1 ∧ filled'.2 = .zero := by
  rw [finalizeApplyTransactions] at h
  cases hfull : clampAndNormalize filled.2 (crate.blockLimits filled.1) with
  | none =>
      rw [hfull] at h
      cases h
  | some normalized =>
      rw [hfull] at h
      obtain ⟨state, hstate, h⟩ := bind_ok.mp h
      rw [other_ok] at hstate
      obtain rfl := Except.ok.inj h
      exact ⟨hlaws.postBlockUpdate hstate, rfl⟩

end Steps

section Facade

variable {S8 S9 : Type} {v8 : LedgerCrate m S8} {v9 : LedgerCrate m S9}
  {coins8 : S8 → Coins Bytes LedgerUtxo} {coins9 : S9 → Coins Bytes LedgerUtxo}
  {sha256 : Bytes → ByteArr 32}
  {contractBalances : Bytes → LedgerVersion → Option (List ContractBalance)}
  {ledger ledger' : LedgerState S8 S9} {block : Block}

def ledgerCoins (coins8 : S8 → Coins Bytes LedgerUtxo) (coins9 : S9 → Coins Bytes LedgerUtxo) :
    LedgerState S8 S9 → Coins Bytes LedgerUtxo
  | .v8 filled => coins8 filled.1
  | .v9 filled => coins9 filled.1

theorem applyRegular_ok {L : Type} {libs : LedgerLibs L} {ledger : L} {tx : RegularTransaction}
    {parentTs : Nat} {bumpTblock : Bool} {r : ApplyRegularTransactionOutcome × L}
    (h : applyRegular libs ledger tx block parentTs bumpTblock = .ok r) :
    ∃ wellFormedTs, libs.applyRegularTransaction ledger tx.raw block.parentHash block.timestamp parentTs
      wellFormedTs = .ok r := by
  rw [applyRegular] at h
  cases bumpTblock with
  | false => exact ⟨_, Pipeline.context_ok.mp h⟩
  | true =>
      simp only [if_true] at h
      cases hfirst : libs.applyRegularTransaction ledger tx.raw block.parentHash block.timestamp parentTs
          ((parentTs + mempoolTblockBumpMillis) % 2 ^ 64) with
      | ok a =>
          rw [hfirst] at h
          exact ⟨_, hfirst.trans (congrArg Except.ok (Except.ok.inj h))⟩
      | error e =>
          rw [hfirst] at h
          cases e with
          | malformedTransaction message => exact ⟨_, Pipeline.context_ok.mp h⟩
          | other message => cases h

/-- What the pipeline records of a transaction is what it does to the ledger's coins. -/
theorem applyTransaction_recorded (h8 : CrateLaws v8 coins8) (h9 : CrateLaws v9 coins9)
    (hkept : WellKept outpoint (ledgerCoins coins8 coins9 ledger)) {transaction : Transaction}
    {parentTs : Nat} {bumpTblock : Bool} {applied : AppliedTransaction}
    (h : applyTransaction (ledgerLibs v8 v9 sha256 contractBalances) ledger transaction block parentTs
      bumpTblock = .ok (applied, ledger')) :
    Recorded (ledgerCoins coins8 coins9 ledger) (ledgerCoins coins8 coins9 ledger') applied.createdUtxos
      applied.spentUtxos := by
  cases transaction with
  | regular tx =>
      obtain ⟨⟨outcome, next⟩, hregular, h⟩ := bind_ok.mp h
      obtain ⟨rfl, rfl⟩ := Prod.mk.inj (Except.ok.inj h)
      obtain ⟨wellFormedTs, happly⟩ := applyRegular_ok hregular
      cases ledger with
      | v8 filled =>
          obtain ⟨⟨outcome', filled'⟩, hfilled, h⟩ := bind_ok.mp happly
          obtain ⟨rfl, rfl⟩ := Prod.mk.inj (Except.ok.inj h)
          exact recorded_regular h8 hkept hfilled
      | v9 filled =>
          obtain ⟨⟨outcome', filled'⟩, hfilled, h⟩ := bind_ok.mp happly
          obtain ⟨rfl, rfl⟩ := Prod.mk.inj (Except.ok.inj h)
          exact recorded_regular h9 hkept hfilled
  | system tx =>
      obtain ⟨⟨outcome, next⟩, hsystem, h⟩ := bind_ok.mp h
      obtain ⟨rfl, rfl⟩ := Prod.mk.inj (Except.ok.inj h)
      have happly := Pipeline.context_ok.mp hsystem
      cases ledger with
      | v8 filled =>
          obtain ⟨⟨outcome', filled'⟩, hfilled, h⟩ := bind_ok.mp happly
          obtain ⟨rfl, rfl⟩ := Prod.mk.inj (Except.ok.inj h)
          exact recorded_system h8 hkept hfilled
      | v9 filled =>
          obtain ⟨⟨outcome', filled'⟩, hfilled, h⟩ := bind_ok.mp happly
          obtain ⟨rfl, rfl⟩ := Prod.mk.inj (Except.ok.inj h)
          exact recorded_system h9 hkept hfilled

theorem finalize_ledgerCoins (h8 : CrateLaws v8 coins8) (h9 : CrateLaws v9 coins9) {ts : Nat}
    (h : LedgerState.finalizeApplyTransactions v8 v9 ledger ts = .ok ledger') :
    ledgerCoins coins8 coins9 ledger' = ledgerCoins coins8 coins9 ledger := by
  cases ledger with
  | v8 filled =>
      obtain ⟨filled', hfilled, h⟩ := bind_ok.mp h
      obtain rfl := Except.ok.inj h
      exact (finalize_coins h8 hfilled).1
  | v9 filled =>
      obtain ⟨filled', hfilled, h⟩ := bind_ok.mp h
      obtain rfl := Except.ok.inj h
      exact (finalize_coins h9 hfilled).1

end Facade

section Moves

def ledgerMove : UtxoMove → Move LedgerUtxo
  | .create txId utxo => .create txId (ledgerUtxo utxo)
  | .spend txId utxo => .spend txId (ledgerUtxo utxo)

theorem ledgerMove_txMoves (txId : Nat) (applied : AppliedTransaction) :
    (txMoves txId applied).map ledgerMove =
      (applied.createdUtxos.map ledgerUtxo).map (Move.create txId) ++
        (applied.spentUtxos.map ledgerUtxo).map (Move.spend txId) := by
  simp only [txMoves, List.map_append, List.map_map]
  rfl

theorem ledgerUtxo_eq {a b : UnshieldedUtxo} (h : ledgerUtxo a = ledgerUtxo b) : SameUtxo a b :=
  ⟨congrArg LedgerUtxo.owner h, congrArg LedgerUtxo.tokenType h, congrArg LedgerUtxo.value h⟩

theorem mem_create {txId : Nat} {utxo : LedgerUtxo} {moves : List UtxoMove} :
    .create txId utxo ∈ moves.map ledgerMove ↔
      ∃ recorded, .create txId recorded ∈ moves ∧ ledgerUtxo recorded = utxo := by
  constructor
  · intro h
    obtain ⟨move, hmove, heq⟩ := List.mem_map.mp h
    cases move with
    | create i recorded =>
        cases heq
        exact ⟨recorded, hmove, rfl⟩
    | spend i recorded => cases heq
  · rintro ⟨recorded, hmem, rfl⟩
    exact List.mem_map.mpr ⟨_, hmem, rfl⟩

theorem mem_spend {txId : Nat} {utxo : LedgerUtxo} {moves : List UtxoMove} :
    .spend txId utxo ∈ moves.map ledgerMove ↔
      ∃ recorded, .spend txId recorded ∈ moves ∧ ledgerUtxo recorded = utxo := by
  constructor
  · intro h
    obtain ⟨move, hmove, heq⟩ := List.mem_map.mp h
    cases move with
    | spend i recorded =>
        cases heq
        exact ⟨recorded, hmove, rfl⟩
    | create i recorded => cases heq
  · rintro ⟨recorded, hmem, rfl⟩
    exact List.mem_map.mpr ⟨_, hmem, rfl⟩

theorem ledgerConsistent_of {moves : List UtxoMove}
    (h : Consistent outpoint Eq (moves.map ledgerMove)) : LedgerConsistent moves := by
  intro past move rest heq
  subst heq
  have hadmissible := h (past.map ledgerMove) (ledgerMove move) (rest.map ledgerMove) (by simp)
  cases move with
  | create txId utxo =>
      intro i other hother
      exact hadmissible i (ledgerUtxo other) (mem_create.mpr ⟨other, hother, rfl⟩)
  | spend txId utxo =>
      obtain ⟨hspent, i, created, hcreated, hkey, hsame⟩ := hadmissible
      obtain ⟨recorded, hrecorded, rfl⟩ := mem_create.mp hcreated
      refine ⟨?_, i, recorded, hrecorded, hkey, ledgerUtxo_eq hsame⟩
      intro j other hother
      exact hspent j (ledgerUtxo other) (mem_spend.mpr ⟨other, hother, rfl⟩)

end Moves

section Blocks

variable {S8 S9 : Type} {v8 : LedgerCrate m S8} {v9 : LedgerCrate m S9}
  {coins8 : S8 → Coins Bytes LedgerUtxo} {coins9 : S9 → Coins Bytes LedgerUtxo}
  {sha256 : Bytes → ByteArr 32}
  {contractBalances : Bytes → LedgerVersion → Option (List ContractBalance)}
  {ledger ledger' : LedgerState S8 S9} {block : Block} {parentTs : Nat} {moves : List UtxoMove}

theorem blockMoves_snoc (first : Nat) (derived : List AppliedTransaction) (applied : AppliedTransaction) :
    blockMoves first (derived ++ [applied]).zipIdx =
      blockMoves first derived.zipIdx ++ txMoves (first + derived.length) applied := by
  simp [blockMoves, List.zipIdx_append]

theorem replay_leads (h8 : CrateLaws v8 coins8) (h9 : CrateLaws v9 coins9)
    (hstart : Leads outpoint (moves.map ledgerMove) (ledgerCoins coins8 coins9 ledger)) (first : Nat)
    {replay : Replay (LedgerState S8 S9)}
    (h : block.transactions.foldlM
      (replayTransaction (ledgerLibs v8 v9 sha256 contractBalances) block parentTs) ⟨ledger, [], true⟩ =
        .ok replay) :
    Leads outpoint ((moves ++ blockMoves first replay.derived.zipIdx).map ledgerMove)
      (ledgerCoins coins8 coins9 replay.ledgerState) := by
  refine foldlM_induct h (I := fun _ r => Leads outpoint
    ((moves ++ blockMoves first r.derived.zipIdx).map ledgerMove)
    (ledgerCoins coins8 coins9 r.ledgerState)) ?_ ?_
  · simpa [blockMoves] using hstart
  · intro done transaction a b _ ha hb
    obtain ⟨⟨applied, next⟩, happly, hb⟩ := bind_ok.mp hb
    obtain rfl := Except.ok.inj hb
    have hrecorded := applyTransaction_recorded h8 h9 ha.wellKept happly
    have hnext := ha.batch hrecorded (first + a.derived.length)
    rw [← ledgerMove_txMoves, ← List.map_append, List.append_assoc, ← blockMoves_snoc] at hnext
    exact hnext

/-- What the genesis state has to do with the genesis transactions: either they are not
in it, and it has no coins, or it has the coins that they leave. -/
structure GenesisMatches {L : Type} (libs : LedgerLibs L) (coins : L → Coins Bytes LedgerUtxo)
    (block : Block) (genesisLedgerState : Option Bytes) (ledger : L) : Prop where
  before : ∀ {start}, startStates libs block genesisLedgerState ledger = .ok (start, none) →
    coins start = Coins.empty
  after : ∀ {start genesisState replay parentTs},
    startStates libs block genesisLedgerState ledger = .ok (start, some genesisState) →
    block.transactions.foldlM (replayTransaction libs block parentTs) ⟨start, [], true⟩ = .ok replay →
    coins genesisState = coins replay.ledgerState

theorem startStates_fresh (h8 : CrateLaws v8 coins8) (h9 : CrateLaws v9 coins9)
    {genesisLedgerState : Option Bytes} {start genesisState : LedgerState S8 S9}
    (hheight : block.height = 0)
    (h : startStates (ledgerLibs v8 v9 sha256 contractBalances) block genesisLedgerState ledger =
      .ok (start, some genesisState)) : ledgerCoins coins8 coins9 start = Coins.empty := by
  rw [startStates, if_pos hheight] at h
  obtain ⟨fresh, hfresh, h⟩ := bind_ok.mp h
  rw [Pipeline.context_ok] at hfresh
  have hempty : ledgerCoins coins8 coins9 fresh = Coins.empty := by
    obtain rfl := Except.ok.inj hfresh
    cases block.protocolVersion.ledgerVersion with
    | v8 => exact h8.new
    | v9 => exact h9.new
  cases genesisLedgerState with
  | none => cases h
  | some raw =>
      obtain ⟨state, -, h⟩ := bind_ok.mp h
      obtain ⟨root, -, h⟩ := bind_ok.mp h
      cases hroot : block.ledgerStateRoot with
      | none =>
          rw [hroot] at h
          cases h
      | some nodeRoot =>
          rw [hroot] at h
          simp only at h
          split at h
          · obtain ⟨rfl, -⟩ := Prod.mk.inj (Except.ok.inj h)
            exact hempty
          · cases h

theorem replayBlock_leads (h8 : CrateLaws v8 coins8) (h9 : CrateLaws v9 coins9)
    {genesisLedgerState : Option Bytes} {derived : List AppliedTransaction} {parentTs' : Nat}
    (hstart : if block.height = 0 then moves = [] ∧
        GenesisMatches (ledgerLibs v8 v9 sha256 contractBalances) (ledgerCoins coins8 coins9) block
          genesisLedgerState ledger
      else Leads outpoint (moves.map ledgerMove) (ledgerCoins coins8 coins9 ledger))
    (first : Nat)
    (h : replayBlock (ledgerLibs v8 v9 sha256 contractBalances) block genesisLedgerState ledger parentTs =
      .ok (derived, ledger', parentTs')) :
    Leads outpoint ((moves ++ blockMoves first derived.zipIdx).map ledgerMove)
      (ledgerCoins coins8 coins9 ledger') := by
  obtain ⟨⟨start, genesisState⟩, hstates, h⟩ := bind_ok.mp h
  obtain ⟨replay, hloop, h⟩ := bind_ok.mp h
  obtain ⟨final, hfinal, h⟩ := bind_ok.mp h
  obtain ⟨-, -, h⟩ := bind_ok.mp h
  rw [Pipeline.context_ok] at hfinal
  obtain ⟨rfl, hrest⟩ := Prod.mk.inj (Except.ok.inj h)
  obtain ⟨rfl, -⟩ := Prod.mk.inj hrest
  have hcoins := finalize_ledgerCoins h8 h9 hfinal
  by_cases hheight : block.height = 0
  · rw [if_pos hheight] at hstart
    obtain ⟨rfl, hgenesis⟩ := hstart
    cases genesisState with
    | none =>
        have hempty : Leads outpoint (([] : List UtxoMove).map ledgerMove)
            (ledgerCoins coins8 coins9 start) := by
          rw [hgenesis.before hstates]
          exact Leads.start
        have hleads := replay_leads h8 h9 hempty first hloop
        rw [← hcoins] at hleads
        exact hleads
    | some state =>
        have hempty : Leads outpoint (([] : List UtxoMove).map ledgerMove)
            (ledgerCoins coins8 coins9 start) := by
          rw [startStates_fresh h8 h9 hheight hstates]
          exact Leads.start
        have hleads := replay_leads h8 h9 hempty first hloop
        rw [← hgenesis.after hstates hloop] at hleads
        exact hleads
  · rw [if_neg hheight] at hstart
    rw [startStates, if_neg hheight] at hstates
    obtain ⟨translated, htranslate, hstates⟩ := bind_ok.mp hstates
    obtain ⟨rfl, rfl⟩ := Prod.mk.inj (Except.ok.inj hstates)
    have hsame : translated = ledger := by
      rw [IndexBlock.translate] at htranslate
      split at htranslate
      · exact (Except.ok.inj htranslate).symm
      · cases htranslate
    subst hsame
    have hleads := replay_leads h8 h9 hstart first hloop
    rw [← hcoins] at hleads
    exact hleads

end Blocks

section Runs

/-- A run of the pipeline with its ledger state, which a restart loads again. -/
inductive Following {L : Type} (libs : LedgerLibs L) (coins : L → Coins Bytes LedgerUtxo) :
    List DerivedBlock → Store → Counters → L → Prop
  | start (ledger : L) : Following libs coins [] fresh (Counters.load fresh) ledger
  | step {blocks : List DerivedBlock} {s s' : Store} {ids ids' : Counters} {ledger ledger' : L}
      (d : DerivedBlock) (genesisLedgerState : Option Bytes) (parentTs parentTs' : Nat)
      (ledgerStateKey : Bytes) (window : LedgerStateWindow)
      (h : Following libs coins blocks s ids ledger) (hroom : Room ids d.transactions)
      (hgenesis : d.block.height = 0 → GenesisMatches libs coins d.block genesisLedgerState ledger)
      (hreplay : replayBlock libs d.block genesisLedgerState ledger parentTs =
        .ok (d.transactions, ledger', parentTs'))
      (hblock : writeBlock s d.block d.transactions ledgerStateKey window ids = .ok (s', ids')) :
      Following libs coins (blocks ++ [d]) s' ids' ledger'
  | restart {blocks : List DerivedBlock} {s : Store} {ids : Counters} {ledger ledger' : L}
      (h : Following libs coins blocks s ids ledger) (hcoins : coins ledger' = coins ledger) :
      Following libs coins blocks s ids ledger'
  | scan {blocks : List DerivedBlock} {s s' : Store} {ids : Counters} {ledger : L}
      (h : Following libs coins blocks s ids ledger) (hscan : ∀ p, p ∉ walletParts → s' p = s p) :
      Following libs coins blocks s' ids ledger

theorem Following.run {L : Type} {libs : LedgerLibs L} {coins : L → Coins Bytes LedgerUtxo}
    {blocks : List DerivedBlock} {s : Store} {ids : Counters} {ledger : L}
    (h : Following libs coins blocks s ids ledger) : Run blocks s ids := by
  induction h with
  | start ledger => exact .start
  | step d genesisLedgerState parentTs parentTs' ledgerStateKey window _ hroom _ _ hblock ih =>
      exact ih.step d ledgerStateKey window hroom hblock
  | restart _ _ ih => exact ih
  | scan _ hscan ih => exact ih.scan hscan

theorem run_tables {blocks : List DerivedBlock} {s : Store} {ids : Counters} (h : Run blocks s ids)
    (hc : LedgerConsistent (movesOf blocks)) : UtxoTables s (movesOf blocks) := by
  induction h with
  | start => exact UtxoTables.start
  | @step blocks s s' ids ids' d ledgerStateKey window h hroom hblock ih =>
      have hids : ids.nextTxId = (blocks.flatMap DerivedBlock.transactions).length := by
        rw [h.holds.counters, ← logOf_txs_length]
        rfl
      rw [movesOf_push, ← hids] at hc ⊢
      obtain ⟨st, balances, hloop, htail, hs, -⟩ := writeBlock_ok.mp hblock
      have hstart : UtxoView s (movesOf blocks) [] (Staged.start ids) := by
        refine ⟨Mirrors.start _, by simpa using ih hc.of_append, ?_⟩
        intro owner tokenType
        simp [Staged.start]
      refine (hstart.loop hroom hc hloop).tables.congr ?_ ?_ <;>
      · rw [hs, blockBatch_frame (by decide) htail]
  | scan h hscan ih => exact (ih hc).congr (hscan _ (by decide)) (hscan _ (by decide))

variable {S8 S9 : Type} {v8 : LedgerCrate m S8} {v9 : LedgerCrate m S9}
  {coins8 : S8 → Coins Bytes LedgerUtxo} {coins9 : S9 → Coins Bytes LedgerUtxo}
  {sha256 : Bytes → ByteArr 32}
  {contractBalances : Bytes → LedgerVersion → Option (List ContractBalance)}
  {ledger : LedgerState S8 S9} {blocks : List DerivedBlock} {s : Store} {ids : Counters}

theorem following_leads (h8 : CrateLaws v8 coins8) (h9 : CrateLaws v9 coins9)
    (h : Following (ledgerLibs v8 v9 sha256 contractBalances) (ledgerCoins coins8 coins9) blocks s ids
      ledger) (hconsecutive : Consecutive blocks) :
    blocks = [] ∨ Leads outpoint ((movesOf blocks).map ledgerMove) (ledgerCoins coins8 coins9 ledger) := by
  induction h with
  | start ledger => exact .inl rfl
  | @step blocks s s' ids ids' ledger ledger' d genesisLedgerState parentTs parentTs' ledgerStateKey
      window h hroom hgenesis hreplay hblock ih =>
      right
      obtain ⟨hbefore, hheight⟩ := hconsecutive.of_push
      rw [movesOf_push]
      refine replayBlock_leads h8 h9 ?_ _ hreplay
      by_cases hzero : d.block.height = 0
      · rw [if_pos hzero]
        have hnil : blocks = [] := List.eq_nil_of_length_eq_zero (hheight ▸ hzero)
        subst hnil
        exact ⟨rfl, hgenesis hzero⟩
      · rw [if_neg hzero]
        rcases ih hbefore with rfl | hleads
        · exact absurd hheight hzero
        · exact hleads
  | restart _ hcoins ih =>
      rw [hcoins]
      exact ih hconsecutive
  | scan _ _ ih => exact ih hconsecutive

theorem unspent_iff {moves : List UtxoMove} {coins : Coins Bytes LedgerUtxo}
    (hleads : Leads outpoint (moves.map ledgerMove) coins) (htables : UtxoTables s moves)
    (utxo : LedgerUtxo) : utxo ∈ coins.unspent ↔
      ∃ record, (s .utxos)[outpoint utxo]? = some record ∧ record.spendingTxId = none ∧
        ledgerUtxo record.utxo = utxo := by
  rw [hleads.unspent]
  constructor
  · rintro ⟨⟨txId, hcreate⟩, hkept⟩
    obtain ⟨recorded, hrecorded, rfl⟩ := mem_create.mp hcreate
    have hspends : ∀ i, none = some i ↔
        ∃ other, .spend i other ∈ moves ∧ outpointKey other = outpointKey recorded := by
      intro i
      constructor
      · intro hnone
        cases hnone
      · rintro ⟨other, hspend, hkey⟩
        exact absurd hkey (hkept i (ledgerUtxo other) (mem_spend.mpr ⟨other, hspend, rfl⟩))
    have hentry := (htables.records (outpointKey recorded) ⟨recorded, txId, none⟩).mpr
      ⟨hrecorded, rfl, hspends⟩
    obtain ⟨record, hrecord, heq⟩ := Option.map_eq_some_iff.mp hentry
    refine ⟨record, hrecord, congrArg Entry.spentBy heq, ?_⟩
    exact congrArg (fun entry => ledgerUtxo (Entry.coin entry)) heq
  · rintro ⟨record, hrecord, hnone, rfl⟩
    obtain ⟨hcreate, hkey, hspends⟩ := (htables.records (outpoint (ledgerUtxo record.utxo))
      (entryOf record)).mp (congrArg (Option.map entryOf) hrecord)
    refine ⟨⟨record.creatingTxId, mem_create.mpr ⟨record.utxo, hcreate, rfl⟩⟩, ?_⟩
    intro i other hspend hother
    obtain ⟨recorded, hrecorded, rfl⟩ := mem_spend.mp hspend
    have hspent := (hspends i).mpr ⟨recorded, hrecorded, hother⟩
    rw [entryOf, hnone] at hspent
    cases hspent

/-- After every block the unspent records of the store are the UTXO set of the ledger
state, and the index of the unspent has an entry for each of them. -/
theorem store_follows_ledger (h8 : CrateLaws v8 coins8) (h9 : CrateLaws v9 coins9)
    (h : Following (ledgerLibs v8 v9 sha256 contractBalances) (ledgerCoins coins8 coins9) blocks s ids
      ledger) (hconsecutive : Consecutive blocks) (hblocks : blocks ≠ []) :
    (∀ utxo : LedgerUtxo, utxo ∈ (ledgerCoins coins8 coins9 ledger).unspent ↔
      ∃ record, (s .utxos)[outpoint utxo]? = some record ∧ record.spendingTxId = none ∧
        ledgerUtxo record.utxo = utxo) ∧
    ∀ k key, (s .utxosUnspentByOwner)[k]? = some key ↔
      ∃ utxo : UnshieldedUtxo, ledgerUtxo utxo ∈ (ledgerCoins coins8 coins9 ledger).unspent ∧
        k = unspentKey utxo ∧ key = outpointKey utxo := by
  rcases following_leads h8 h9 h hconsecutive with hnil | hleads
  · exact absurd hnil hblocks
  have htables := run_tables h.run (ledgerConsistent_of hleads.consistent)
  have hunspent := unspent_iff hleads htables
  refine ⟨hunspent, ?_⟩
  intro k key
  rw [htables.unspent]
  constructor
  · rintro ⟨record, hrecord, hnone, rfl⟩
    obtain rfl := htables.key hrecord
    exact ⟨record.utxo, (hunspent _).mpr ⟨record, hrecord, hnone, rfl⟩, rfl, rfl⟩
  · rintro ⟨utxo, hmem, rfl, rfl⟩
    obtain ⟨record, hrecord, hnone, hsame⟩ := (hunspent _).mp hmem
    refine ⟨record, hrecord, hnone, ?_⟩
    simp only [unspentKey]
    have howner := congrArg LedgerUtxo.owner hsame
    have htoken := congrArg LedgerUtxo.tokenType hsame
    have hhash := congrArg LedgerUtxo.intentHash hsame
    have hindex := congrArg LedgerUtxo.outputNo hsame
    simp only [ledgerUtxo] at howner htoken hhash hindex
    rw [howner, htoken, hhash, hindex]

end Runs

section Plain

abbrev PlainState := List LedgerUtxo × List Bytes

def plainCoins (state : PlainState) : Coins Bytes LedgerUtxo :=
  ⟨{utxo | utxo ∈ state.1}, {key | key ∈ state.2}⟩

def applyPhase (state : PlainState) (phase : Phase LedgerUtxo) : Option PlainState :=
  if phase.inputs.Nodup ∧ (∀ utxo ∈ phase.inputs, utxo ∈ state.1) ∧
      (phase.outputs.map outpoint).Nodup ∧ ∀ utxo ∈ phase.outputs, outpoint utxo ∉ state.2 then
    some (state.1.filter (fun utxo => decide (utxo ∉ phase.inputs)) ++ phase.outputs,
      state.2 ++ phase.outputs.map outpoint)
  else none

theorem applyPhase_applies {state state' : PlainState} {phase : Phase LedgerUtxo}
    (h : applyPhase state phase = some state') :
    Applies outpoint (plainCoins state) phase (plainCoins state') := by
  rw [applyPhase] at h
  split at h
  case isTrue hphase =>
      obtain ⟨hinputs, hthere, houtputs, hnew⟩ := hphase
      obtain rfl := Option.some.inj h
      refine ⟨hinputs, hthere, houtputs, hnew, ?_, ?_⟩
      · intro utxo
        simp [plainCoins]
      · intro key
        simp [plainCoins]
  case isFalse => cases h

theorem applyPhases_applies {state state' : PlainState} {phases : List (Phase LedgerUtxo)}
    (h : phases.foldlM applyPhase state = some state') :
    AppliesAll outpoint (plainCoins state) phases (plainCoins state') := by
  induction phases generalizing state with
  | nil =>
      obtain rfl := Option.some.inj h
      exact .nil _
  | cons phase phases ih =>
      rw [List.foldlM_cons] at h
      obtain ⟨next, hphase, hrest⟩ := Option.bind_eq_some_iff.mp h
      exact .cons (applyPhase_applies hphase) (ih hrest)

def plainModel : CostModel where
  Fixed := Nat
  max := max
  add := fun _ cost => cost
  normalize := fun cost _ =>
    some ⟨cost.readTime, cost.computeTime, cost.blockUsage, cost.bytesWritten, cost.bytesChurned⟩

theorem five_lt_u128 : (5 : Nat) < 2 ^ 128 := by decide

def plainPayment : OutputInstruction := ⟨5, .filled 32 7, .filled 32 1, five_lt_u128⟩

theorem zero_lt_u32 : (0 : Nat) < 2 ^ 32 := by decide

def plainTransfer : StandardTransaction where
  segments := [0]
  intents := [(1,
    { intentHash := fun _ => .filled 32 2
      guaranteedOutputs := [⟨5, .filled 32 8, night, five_lt_u128⟩]
      fallibleOutputs := []
      guaranteedInputs := [⟨5, [7], night, .filled 32 1, 0, five_lt_u128, zero_lt_u32⟩]
      fallibleInputs := [] })]

def plainStart : LedgerCrate plainModel PlainState where
  lib := ⟨Unit, fun _ => .ok [], fun _ => .ok []⟩
  Verified := CrateTransaction
  new := ([], [])
  fromGenesis := fun _ => .ok ([], [])
  root := fun state => .ok [UInt8.ofNat state.2.length]
  zswapFirstFree := fun _ => 0
  zswapRoot := fun _ => []
  deserializeTransaction := fun _ => .ok (.standard plainTransfer)
  cost := fun _ _ => .ok .zero
  fees := fun _ _ => .ok 0
  overallCost := fun _ _ => 0
  wellFormed := fun _ transaction _ => .ok transaction
  apply := fun state _ _ => (state, .failure)
  deserializeSystemTransaction := fun _ => .ok (.payFromTreasuryUnshielded [plainPayment] night)
  systemCost := fun _ _ => .zero
  applySystemTx := fun _ _ _ => .error "not applied"
  blockLimits := fun _ => .zero
  postBlockUpdate := fun state _ _ _ => .ok state
  userAddress := fun key => .filled 32 (key.headD 0)
  mkIntentHash := fun output _ => output.nonce
  persistentCommit := fun _ intentHash => intentHash
  nightIndices := fun _ _ => false
  ctime := fun _ _ => none

def plainPhases : CrateTransaction → List (Phase LedgerUtxo)
  | .standard transaction => appliedPhases plainStart transaction .success
  | .claimRewards claim => [⟨[], [claimedUtxo plainStart claim]⟩]

def plainApply (state : PlainState) (transaction : CrateTransaction) :
    PlainState × CrateResult plainStart.lib :=
  match (plainPhases transaction).foldlM applyPhase state with
  | some state => (state, .success [])
  | none => (state, .failure)

def plainPay (state : PlainState) :
    CrateSystemTransaction → Except String (PlainState × List (LedgerEvents.Event plainStart.lib))
  | .payFromTreasuryUnshielded outputs tokenType =>
      match applyPhase state ⟨[], outputs.zipIdx.map (paidUtxo plainStart tokenType)⟩ with
      | some state => .ok (state, [])
      | none => .error "outputs exist"
  | .other _ => .ok (state, [])

def plainCrate : LedgerCrate plainModel PlainState :=
  { plainStart with
    apply := fun state transaction _ => plainApply state transaction
    applySystemTx := fun state transaction _ => plainPay state transaction }

theorem plainApply_cases {state state' : PlainState} {transaction : CrateTransaction}
    {result : CrateResult plainStart.lib} (h : plainApply state transaction = (state', result)) :
    ((plainPhases transaction).foldlM applyPhase state = some state' ∧ result = .success []) ∨
      state' = state ∧ result = .failure := by
  rw [plainApply] at h
  cases hphases : (plainPhases transaction).foldlM applyPhase state with
  | some next =>
      simp only [hphases] at h
      obtain ⟨rfl, rfl⟩ := Prod.mk.inj h
      exact .inl ⟨rfl, rfl⟩
  | none =>
      simp only [hphases] at h
      obtain ⟨rfl, rfl⟩ := Prod.mk.inj h
      exact .inr ⟨rfl, rfl⟩

theorem plainCrate_laws : CrateLaws plainCrate plainCoins := by
  refine ⟨?_, ?_, ?_, ?_, ?_, ?_, ?_⟩
  · simp [plainCoins, plainCrate, plainStart, Coins.empty]
  · intro state tx ts verified cx state' hverified happly
    rcases plainApply_cases happly with ⟨-, hresult⟩ | ⟨rfl, -⟩
    · cases hresult
    · rfl
  · intro state tx ts verified cx state' result hverified happly hfailed
    obtain rfl := Except.ok.inj hverified
    rcases plainApply_cases happly with ⟨hphases, rfl⟩ | ⟨-, rfl⟩
    · exact applyPhases_applies hphases
    · exact absurd rfl hfailed
  · intro state claim ts verified cx state' result hverified happly hfailed
    obtain rfl := Except.ok.inj hverified
    rcases plainApply_cases happly with ⟨hphases, rfl⟩ | ⟨-, rfl⟩
    · cases applyPhases_applies hphases with
      | cons h hrest =>
          cases hrest
          exact h
    · exact absurd rfl hfailed
  · intro state outputs tokenType ts state' events h
    change plainPay state (.payFromTreasuryUnshielded outputs tokenType) = _ at h
    rw [plainPay] at h
    cases hphase : applyPhase state ⟨[], outputs.zipIdx.map (paidUtxo plainStart tokenType)⟩ with
    | some next =>
        simp only [hphase] at h
        obtain ⟨rfl, -⟩ := Prod.mk.inj (Except.ok.inj h)
        exact applyPhase_applies hphase
    | none =>
        simp only [hphase] at h
        cases h
  · intro state payload ts state' events h
    obtain ⟨rfl, -⟩ := Prod.mk.inj (Except.ok.inj h)
    rfl
  · intro state ts fullness overall state' h
    obtain rfl := Except.ok.inj h
    rfl

def plainLibs : LedgerLibs (LedgerState PlainState PlainState) :=
  ledgerLibs plainCrate plainCrate (fun _ => .filled 32 0) fun _ _ => none

/-- A genesis block with a payment of the treasury and the transfer of what it pays. -/
def plainBlock : Block :=
  { emptyBlock 0 zero_lt_u64 with
    ledgerStateRoot := some [2]
    transactions :=
      [.system ⟨.filled 32 1, .v1_0 1000000, []⟩, .regular ⟨.filled 32 2, .v1_0 1000000, [], [], []⟩] }

def plainReplay : List AppliedTransaction × LedgerState PlainState PlainState × Nat :=
  (replayBlock plainLibs plainBlock (some []) (.v8 (([], []), .zero)) 0).toOption.getD
    ([], .v8 (([], []), .zero), 0)

theorem plainReplay_ok :
    replayBlock plainLibs plainBlock (some []) (.v8 (([], []), .zero)) 0 = .ok plainReplay :=
  ok_of_toBool (by decide +kernel) _

def plainDerived : DerivedBlock where
  block := plainBlock
  transactions := plainReplay.1
  derived := fun applied h => ((replayBlock_derived plainReplay_ok).2 applied h).1

theorem plainBlock_genesis (ledger : LedgerState PlainState PlainState) :
    GenesisMatches plainLibs (ledgerCoins plainCoins plainCoins) plainBlock (some []) ledger := by
  have hstates : startStates plainLibs plainBlock (some []) ledger =
      .ok (.v8 (([], []), .zero), none) := rfl
  constructor
  · intro start h
    rw [hstates] at h
    obtain ⟨rfl, -⟩ := Prod.mk.inj (Except.ok.inj h)
    exact plainCrate_laws.new
  · intro start genesisState replay parentTs h
    rw [hstates] at h
    obtain ⟨-, hnone⟩ := Prod.mk.inj (Except.ok.inj h)
    cases hnone

theorem following_plain : ∃ s ids,
    Following plainLibs (ledgerCoins plainCoins plainCoins) [plainDerived] s ids plainReplay.2.1 := by
  obtain ⟨⟨s, ids⟩, hblock⟩ := exists_ok (x := writeBlock fresh plainDerived.block
    plainDerived.transactions [] [] (Counters.load fresh)) (by decide +kernel)
  exact ⟨s, ids, (Following.start (.v8 (([], []), .zero))).step plainDerived (some []) 0 plainReplay.2.2 []
    [] (by decide +kernel) (fun _ => plainBlock_genesis _) plainReplay_ok hblock⟩

theorem plainDerived_consecutive : Consecutive [plainDerived] := by
  intro i d hd
  cases i with
  | zero =>
      obtain rfl := Option.some.inj hd
      rfl
  | succ i => cases hd

theorem store_follows_ledger_plain : ∃ s ids, Following plainLibs (ledgerCoins plainCoins plainCoins)
      [plainDerived] s ids plainReplay.2.1 ∧
    (∀ utxo : LedgerUtxo, utxo ∈ (ledgerCoins plainCoins plainCoins plainReplay.2.1).unspent ↔
      ∃ record, (s .utxos)[outpoint utxo]? = some record ∧ record.spendingTxId = none ∧
        ledgerUtxo record.utxo = utxo) ∧
    ∀ k key, (s .utxosUnspentByOwner)[k]? = some key ↔
      ∃ utxo : UnshieldedUtxo, ledgerUtxo utxo ∈ (ledgerCoins plainCoins plainCoins plainReplay.2.1).unspent ∧
        k = unspentKey utxo ∧ key = outpointKey utxo := by
  obtain ⟨s, ids, hrun⟩ := following_plain
  exact ⟨s, ids, hrun, store_follows_ledger plainCrate_laws plainCrate_laws hrun plainDerived_consecutive
    (by simp)⟩

end Plain

end Nightfrost.LedgerUtxos
