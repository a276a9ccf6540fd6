import Nightfrost.BalanceRange
import Nightfrost.Endpoints
import Nightfrost.HexForms
import Nightfrost.LedgerUtxos

namespace Nightfrost.AddressBalances

open ByteOrder Tables Partitions Domain Schema WriteBlock Staging MovingStore Api ExceptFold CoinHistory
  CoinLedger EntityLog BlockStep BlockRun Timeline Endpoints IndexBlock UtxoSet BalanceRange LedgerFacade
  LedgerUtxos

def BalanceResponse.of (entry : Bytes × Nat) : BalanceResponse where
  tokenType := hexEncode ((entry.1.drop 32).take 32)
  amount := toString entry.2

def addressBalances (libs : AddressLibs) (addr : String) : Handler (PointResponse (List BalanceResponse)) := do
  let owner ← liftExcept (parseAddr32 libs addr)
  let balances ← query (fun s => (scanPrefix (s .balances) owner.val).map BalanceResponse.of)
  response balances

/-- What the ledger has of a token at an address. -/
def Holds (coins : Coins Bytes LedgerUtxo) (owner tokenType : ByteArr 32) (amount : Nat) : Prop :=
  ∃ held : Finset LedgerUtxo,
    (∀ utxo, utxo ∈ held ↔ utxo ∈ coins.unspent ∧ utxo.owner = owner ∧ utxo.tokenType = tokenType) ∧
    ∑ utxo ∈ held, utxo.value = amount

section Totals

variable {s : Store} {moves : List UtxoMove} {coins : Coins Bytes LedgerUtxo} {owner tokenType : ByteArr 32}

theorem sumOf_filter {V : Type} (t : Table V) (p : V → Prop) [DecidablePred p] (f : V → Nat) :
    ((t.toList.filter (fun row => decide (p row.2))).map (fun row => f row.2)).sum =
      sumOf t (fun v => if p v then f v else 0) := by
  rw [sumOf]
  induction t.toList with
  | nil => rfl
  | cons row rows ih =>
      by_cases hrow : p row.2
      · simp [hrow, ih]
      · simp [hrow, ih]

def Unspent (owner tokenType : ByteArr 32) (record : UtxoRecord) : Prop :=
  record.spendingTxId = none ∧ record.utxo.owner = owner ∧ record.utxo.tokenType = tokenType

instance (record : UtxoRecord) : Decidable (Unspent owner tokenType record) :=
  inferInstanceAs (Decidable (_ ∧ _ ∧ _))

def unspentRows (s : Store) (owner tokenType : ByteArr 32) : List (Bytes × UtxoRecord) :=
  (s .utxos).toList.filter (fun row => decide (Unspent owner tokenType row.2))

theorem unspentRows_sum :
    ((unspentRows s owner tokenType).map (fun row => (ledgerUtxo row.2.utxo).value)).sum =
      unspentTotal s owner tokenType := by
  have hsum := sumOf_filter (s .utxos) (Unspent owner tokenType) fun record => record.utxo.value
  apply hsum.trans
  rw [unspentTotal]
  congr 1
  funext record
  simp only [Unspent, unspentWeight, weight]
  by_cases hspent : record.spendingTxId = none
  · simp [hspent]
  · simp [hspent]

theorem unspentRows_nodup (htables : UtxoTables s moves) :
    ((unspentRows s owner tokenType).map (fun row => ledgerUtxo row.2.utxo)).Nodup := by
  apply List.Nodup.of_map outpoint
  rw [List.map_map]
  have hkeys : (unspentRows s owner tokenType).map (outpoint ∘ fun row => ledgerUtxo row.2.utxo) =
      (unspentRows s owner tokenType).map Prod.fst := by
    apply List.map_congr_left
    intro row hrow
    exact htables.key (mem_rows.mp (List.mem_of_mem_filter hrow))
  rw [hkeys]
  refine List.Pairwise.map _ ?_ ((rows_sorted _).filter _)
  intro a b h he
  rw [he, Std.ReflOrd.compare_self] at h
  cases h

/-- The unspent records of a pair come to what the ledger has of it. -/
theorem holds_unspentTotal (hleads : Leads outpoint (moves.map ledgerMove) coins)
    (htables : UtxoTables s moves) : Holds coins owner tokenType (unspentTotal s owner tokenType) := by
  refine ⟨((unspentRows s owner tokenType).map fun row => ledgerUtxo row.2.utxo).toFinset, ?_, ?_⟩
  · intro utxo
    rw [List.mem_toFinset, unspent_iff hleads htables, List.mem_map]
    constructor
    · rintro ⟨⟨key, record⟩, hrow, rfl⟩
      obtain ⟨hget, hunspent⟩ := List.mem_filter.mp hrow
      obtain ⟨hspent, howner, htoken⟩ := of_decide_eq_true hunspent
      have hrecord := mem_rows.mp hget
      exact ⟨⟨record, (htables.key hrecord).symm ▸ hrecord, hspent, rfl⟩, howner, htoken⟩
    · rintro ⟨⟨record, hrecord, hspent, rfl⟩, howner, htoken⟩
      exact ⟨⟨_, record⟩, List.mem_filter.mpr ⟨mem_rows.mpr hrecord,
        decide_eq_true ⟨hspent, howner, htoken⟩⟩, rfl⟩
  · rw [List.sum_toFinset _ (unspentRows_nodup htables), List.map_map]
    exact unspentRows_sum

theorem Holds.unique {amount amount' : Nat} (h : Holds coins owner tokenType amount)
    (h' : Holds coins owner tokenType amount') : amount = amount' := by
  obtain ⟨held, hheld, rfl⟩ := h
  obtain ⟨held', hheld', rfl⟩ := h'
  have hsame : held = held' := by
    ext utxo
    rw [hheld, hheld']
  rw [hsame]

end Totals

section Runs

variable {blocks : List DerivedBlock} {s s' : Store} {ids ids' : Counters}

def Paired (s : Store) : Prop :=
  ∀ k amount, (s .balances)[k]? = some amount → ∃ owner tokenType, k = balanceKey owner tokenType

theorem writeBlock_paired {block : Block} {transactions : List AppliedTransaction} {ledgerStateKey : Bytes}
    {window : LedgerStateWindow} (hs : Paired s)
    (hblock : writeBlock s block transactions ledgerStateKey window ids = .ok (s', ids')) : Paired s' := by
  obtain ⟨st, balances, hloop, htail, rfl, -⟩ := writeBlock_ok.mp hblock
  intro k amount hk
  cases hdelta : st.balanceDeltas[k]? with
  | some delta => exact (loop_progress hloop).keys k delta hdelta
  | none =>
      rw [(blockBatch_balances ledgerStateKey window hloop htail k).2 hdelta] at hk
      exact hs k amount hk

theorem run_paired (h : Run blocks s ids) : Paired s := by
  induction h with
  | start =>
      intro k amount hk
      rw [fresh_other (by decide), get_empty] at hk
      cases hk
  | step d ledgerStateKey window _ _ hblock ih => exact writeBlock_paired ih hblock
  | scan _ hscan ih =>
      intro k amount hk
      rw [hscan _ (by decide)] at hk
      exact ih k amount hk

/-- No pair ever has more than a `u128` can hold. -/
def InSupply (blocks : List DerivedBlock) : Prop :=
  ∀ n owner tokenType, total owner tokenType (movesOf (blocks.take n)) < 2 ^ 128

theorem InSupply.earlier {more : List DerivedBlock} (h : InSupply (blocks ++ more)) : InSupply blocks := by
  intro n owner tokenType
  have hmin := h (min n blocks.length) owner tokenType
  rwa [List.take_append_of_le_length (Nat.min_le_right _ _), ← List.take_take, List.take_length] at hmin

theorem InSupply.last (h : InSupply blocks) (owner tokenType : ByteArr 32) :
    total owner tokenType (movesOf blocks) < 2 ^ 128 := by
  have hall := h blocks.length owner tokenType
  rwa [List.take_length] at hall

theorem writeBlock_bounded {d : DerivedBlock} {ledgerStateKey : Bytes} {window : LedgerStateWindow}
    {past : List UtxoMove} (ht : UtxoTables s past) (hb : Balances s past) (hpast : Bounded past)
    (hroom : Room ids d.transactions)
    (hc : LedgerConsistent (past ++ blockMoves ids.nextTxId d.transactions.zipIdx))
    (hsupply : ∀ owner tokenType,
      total owner tokenType (past ++ blockMoves ids.nextTxId d.transactions.zipIdx) < 2 ^ 128)
    (hblock : writeBlock s d.block d.transactions ledgerStateKey window ids = .ok (s', ids')) :
    Bounded (past ++ blockMoves ids.nextTxId d.transactions.zipIdx) := by
  obtain ⟨st, balances, hloop, htail, -, -⟩ := writeBlock_ok.mp hblock
  have hstart : UtxoView s past [] (Staged.start ids) := by
    refine ⟨Mirrors.start _, by simpa using ht, ?_⟩
    intro owner tokenType
    simp [Staged.start]
  have hview := hstart.loop hroom hc hloop
  intro owner tokenType
  have happend : total owner tokenType past +
      total owner tokenType (blockMoves ids.nextTxId d.transactions.zipIdx) =
        total owner tokenType (past ++ blockMoves ids.nextTxId d.transactions.zipIdx) := by
    simp [total]
  by_cases htouch : ∃ move ∈ blockMoves ids.nextTxId d.transactions.zipIdx, Touches owner tokenType move
  · have hdelta : st.balanceDeltas[balanceKey owner tokenType]? =
        some (wrapI128 (total owner tokenType (blockMoves ids.nextTxId d.transactions.zipIdx))) :=
      (hview.deltas owner tokenType).trans (if_pos htouch)
    obtain ⟨updated, hu, -⟩ := (blockBatch_balances ledgerStateKey window hloop htail
      (balanceKey owner tokenType)).1 _ hdelta
    rw [hb.current ht, wrapI128_add, happend] at hu
    have hsum : 0 ≤ total owner tokenType (past ++ blockMoves ids.nextTxId d.transactions.zipIdx) := by
      have hsums := hview.tables.sums owner tokenType
      change (unspentTotal _ owner tokenType : Int) =
        total owner tokenType (past ++ blockMoves ids.nextTxId d.transactions.zipIdx) at hsums
      rw [← hsums]
      exact Int.natCast_nonneg _
    exact (wrapI128_nonneg_iff hsum (hsupply owner tokenType)).mp (hu ▸ Int.natCast_nonneg updated)
  · rw [← happend, total_untouched htouch, Int.add_zero]
    exact hpast owner tokenType

theorem run_balances (h : Run blocks s ids) (hc : LedgerConsistent (movesOf blocks))
    (hsupply : InSupply blocks) : UtxoTables s (movesOf blocks) ∧ Balances s (movesOf blocks) ∧
      Bounded (movesOf blocks) := by
  induction h with
  | start =>
      refine ⟨UtxoTables.start, ?_, ?_⟩
      · intro owner tokenType
        simp [fresh_other, movesOf]
      · intro owner tokenType
        simp [movesOf, total, net]
  | @step blocks s s' ids ids' d ledgerStateKey window h hroom hblock ih =>
      have hids : ids.nextTxId = (blocks.flatMap DerivedBlock.transactions).length := by
        rw [h.holds.counters, ← logOf_txs_length]
        rfl
      have hlast := hsupply.last
      rw [movesOf_push, ← hids] at hc hlast ⊢
      obtain ⟨ht, hb, hbounded⟩ := ih hc.of_append hsupply.earlier
      have hnext := writeBlock_bounded ht hb hbounded hroom hc hlast hblock
      obtain ⟨ht', hb'⟩ := writeBlock_utxos ht hb hroom hc hnext hblock
      exact ⟨ht', hb', hnext⟩
  | @scan blocks s s' ids h hscan ih =>
      obtain ⟨ht, hb, hbounded⟩ := ih hc hsupply
      have hutxos : s' .utxos = s .utxos := hscan _ (by decide)
      refine ⟨ht.congr hutxos (hscan _ (by decide)), ?_, hbounded⟩
      intro owner tokenType
      rw [hscan _ (by decide), hb, unspentTotal, unspentTotal, hutxos]

end Runs

section Answers

variable {S8 S9 : Type} {m : CostModel} {v8 : LedgerCrate m S8} {v9 : LedgerCrate m S9}
  {coins8 : S8 → Coins Bytes LedgerUtxo} {coins9 : S9 → Coins Bytes LedgerUtxo}
  {sha256 : Bytes → ByteArr 32}
  {contractBalances : Bytes → LedgerVersion → Option (List ContractBalance)}
  {σ : Nat → Store} {blocks : Nat → List DerivedBlock}

/-- A store that the pipeline writes to while it is read, with the ledger state of each moment. -/
structure Tracking {L : Type} (libs : LedgerLibs L) (coins : L → Coins Bytes LedgerUtxo) (σ : Nat → Store)
    (blocks : Nat → List DerivedBlock) (ledgers : Nat → L) : Prop where
  following : ∀ t, ∃ ids, Following libs coins (blocks t) (σ t) ids (ledgers t)
  consecutive : ∀ t, Consecutive (blocks t)
  grows : ∀ t, blocks t <+: blocks (t + 1)

theorem Tracking.growing {L : Type} {libs : LedgerLibs L} {coins : L → Coins Bytes LedgerUtxo}
    {ledgers : Nat → L} (h : Tracking libs coins σ blocks ledgers) : Growing σ blocks where
  run := by
    intro t
    obtain ⟨ids, hfollowing⟩ := h.following t
    exact ⟨ids, hfollowing.run⟩
  consecutive := h.consecutive
  grows := h.grows

variable {s : Store} {owner : ByteArr 32}

theorem scan_owner (hpaired : Paired s) (owner : ByteArr 32) : ∃ tokens : List (ByteArr 32),
    scanPrefix (s .balances) owner.val = tokens.map (fun token =>
      (balanceKey owner token, (s .balances)[balanceKey owner token]?.getD 0)) := by
  have hrange : scanPrefix (s .balances) owner.val ∈ Set.range (List.map fun token : ByteArr 32 =>
      (balanceKey owner token, (s .balances)[balanceKey owner token]?.getD 0)) := by
    rw [Set.range_list_map]
    rintro ⟨k, amount⟩ hrow
    obtain ⟨hget, hpre⟩ := mem_scanPrefix.mp hrow
    obtain ⟨owner', token, rfl⟩ := hpaired k amount hget
    obtain ⟨rest, hrest⟩ := hpre
    obtain ⟨rfl, -⟩ := append_injective hrest
    refine ⟨token, ?_⟩
    simp only [hget, Option.getD_some]
  obtain ⟨tokens, htokens⟩ := hrange
  exact ⟨tokens, htokens.symm⟩

theorem of_balanceKey (owner token : ByteArr 32) (amount : Nat) :
    BalanceResponse.of (balanceKey owner token, amount) = ⟨hexEncode token.val, toString amount⟩ := by
  simp only [BalanceResponse.of, balanceKey]
  rw [List.drop_left' owner.property, List.take_of_length_le token.property.le]

/-- The balances of an address are what the ledger has of each token there, in the order
of the tokens, and a token that is not among them is not there. -/
theorem balances_follow_ledger (h8 : CrateLaws v8 coins8) (h9 : CrateLaws v9 coins9)
    {ledgers : Nat → LedgerState S8 S9}
    (h : Tracking (ledgerLibs v8 v9 sha256 contractBalances) (ledgerCoins coins8 coins9) σ blocks ledgers)
    {libs : AddressLibs} {addr : String} (haddr : parseAddr32 libs addr = .ok owner) {t : Nat}
    (hblocks : blocks t ≠ []) (hsupply : InSupply (blocks t)) :
    ∃ answer t', ∃ (tokens : List (ByteArr 32)) (amount : ByteArr 32 → Nat),
      (addressBalances libs addr).run σ t = .ok (answer, t') ∧
      (∀ token, Holds (ledgerCoins coins8 coins9 (ledgers t)) owner token (amount token)) ∧
      answer.results = tokens.map (fun token => ⟨hexEncode token.val, toString (amount token)⟩) ∧
      tokens.Pairwise (fun a b => compare a.val b.val = .lt) ∧
      ∀ token, token ∉ tokens → amount token = 0 := by
  obtain ⟨ids, hfollowing⟩ := h.following t
  rcases following_leads h8 h9 hfollowing (h.consecutive t) with hnil | hleads
  · exact absurd hnil hblocks
  obtain ⟨htables, hbalances, -⟩ :=
    run_balances hfollowing.run (ledgerConsistent_of hleads.consistent) hsupply
  have hvalue : ∀ token, (σ t .balances)[balanceKey owner token]?.getD 0 =
      unspentTotal (σ t) owner token := by
    intro token
    have hcurrent := hbalances.current htables owner token
    rw [← htables.sums] at hcurrent
    exact Int.ofNat.inj hcurrent
  obtain ⟨tokens, htokens⟩ := scan_owner (run_paired hfollowing.run) owner
  have hsorted := scanPrefix_sorted (σ t .balances) owner.val
  rw [htokens, List.pairwise_map] at hsorted
  obtain ⟨answer, t', hanswer, hresults⟩ := h.growing.response
    (tokens.map fun token => (⟨hexEncode token.val, toString (unspentTotal (σ t) owner token)⟩ :
      BalanceResponse)) (t + 1)
  refine ⟨answer, t', tokens, unspentTotal (σ t) owner, ?_, ?_, hresults, ?_, ?_⟩
  · rw [addressBalances, run_bind, run_liftExcept.mpr ⟨haddr, rfl⟩]
    change (query (fun s => (scanPrefix (s .balances) owner.val).map BalanceResponse.of) >>= _ :
      Handler _).run σ t = _
    rw [run_bind, run_query, htokens, List.map_map]
    have hrows : tokens.map (BalanceResponse.of ∘ fun token =>
        (balanceKey owner token, (σ t .balances)[balanceKey owner token]?.getD 0)) =
        tokens.map fun token => ⟨hexEncode token.val, toString (unspentTotal (σ t) owner token)⟩ := by
      apply List.map_congr_left
      intro token _
      rw [Function.comp_apply, of_balanceKey, hvalue]
    rw [hrows]
    exact hanswer
  · intro token
    exact holds_unspentTotal hleads htables
  · apply hsorted.imp
    intro a b hlt
    rwa [balanceKey, balanceKey, compare_append_left] at hlt
  · intro token hmem
    rw [← hvalue]
    cases hget : (σ t .balances)[balanceKey owner token]? with
    | none => rfl
    | some amount =>
        have hrow : (balanceKey owner token, amount) ∈ scanPrefix (σ t .balances) owner.val :=
          mem_scanPrefix.mpr ⟨hget, List.prefix_append _ _⟩
        rw [htokens] at hrow
        obtain ⟨token', htoken', hkey⟩ := List.mem_map.mp hrow
        obtain rfl := (balanceKey_injective (congrArg Prod.fst hkey)).2
        exact absurd htoken' hmem

end Answers

section Plain

theorem total_le (owner tokenType : ByteArr 32) (moves : List UtxoMove) :
    total owner tokenType moves ≤ (moves.map fun move => (move.coin.value : Int)).sum := by
  rw [total, net]
  apply List.sum_le_sum
  intro move _
  cases move with
  | create txId utxo =>
      simp only [Move.delta, Move.coin, weight]
      split <;> omega
  | spend txId utxo =>
      simp only [Move.delta, Move.coin, weight]
      split <;> omega

theorem plain_inSupply : InSupply [plainDerived] := by
  intro n owner tokenType
  apply lt_of_le_of_lt (total_le owner tokenType _)
  cases n with
  | zero => decide
  | succ n =>
      rw [List.take_of_length_le (by simp)]
      decide +kernel

theorem balances_follow_ledger_plain : ∃ s answer t',
    (addressBalances hexLibs (hexEncode (ByteArr.filled 32 8).val)).run (fun _ => s) 0 = .ok (answer, t') ∧
      ∃ (tokens : List (ByteArr 32)) (amount : ByteArr 32 → Nat),
        (∀ token, Holds (ledgerCoins plainCoins plainCoins plainReplay.2.1) (.filled 32 8) token
          (amount token)) ∧
        answer.results = tokens.map (fun token => ⟨hexEncode token.val, toString (amount token)⟩) := by
  obtain ⟨s, ids, hfollowing⟩ := following_plain
  have htracking : Tracking plainLibs (ledgerCoins plainCoins plainCoins) (fun _ => s)
      (fun _ => [plainDerived]) (fun _ => plainReplay.2.1) :=
    ⟨fun _ => ⟨ids, hfollowing⟩, fun _ => plainDerived_consecutive, fun _ => List.prefix_refl _⟩
  have haddr : parseAddr32 hexLibs (hexEncode (ByteArr.filled 32 8).val) = .ok (.filled 32 8) := by
    decide +kernel
  obtain ⟨answer, t', tokens, amount, hanswer, hholds, hresults, -, -⟩ :=
    balances_follow_ledger plainCrate_laws plainCrate_laws htracking haddr (t := 0) (by simp) plain_inSupply
  exact ⟨s, answer, t', hanswer, tokens, amount, hholds, hresults⟩

end Plain

end Nightfrost.AddressBalances
