import Nightfrost.UtxoSet

namespace Nightfrost.BalanceRange

open ByteOrder Tables Partitions Domain Schema WriteBlock Staging ExceptFold BlockStep BlockRun
  CoinHistory UtxoSet

/-- What `writeBlock` asks of a transaction that comes after others of its
block: a record for every UTXO that it spends. -/
def Accepts (s : Store) (done : List AppliedTransaction) (applied : AppliedTransaction) : Prop :=
  ∀ utxo ∈ applied.spentUtxos, outpointKey utxo ∈ s .utxos ∨
    ∃ created ∈ (done ++ [applied]).flatMap AppliedTransaction.createdUtxos,
      outpointKey created = outpointKey utxo

def Accepted (s : Store) (transactions : List AppliedTransaction) : Prop :=
  ∀ done applied rest, transactions = done ++ applied :: rest → Accepts s done applied

/-- The balance of a pair over the integers, once some transactions have been applied. -/
def balanceAfter (s : Store) (owner tokenType : ByteArr 32)
    (transactions : List AppliedTransaction) : Int :=
  ((s .balances)[balanceKey owner tokenType]?.getD 0 : Nat) +
    total owner tokenType (blockMoves 0 transactions.zipIdx)

def TouchedPair (owner tokenType : ByteArr 32) (transactions : List AppliedTransaction) : Prop :=
  ∃ move ∈ blockMoves 0 transactions.zipIdx, Touches owner tokenType move

def InRange (s : Store) (transactions : List AppliedTransaction) : Prop :=
  ∀ owner tokenType done rest, transactions = done ++ rest →
    0 ≤ balanceAfter s owner tokenType done ∧ balanceAfter s owner tokenType done < 2 ^ 128

def ExactBalances (s s' : Store) (transactions : List AppliedTransaction) : Prop :=
  ∀ owner tokenType, TouchedPair owner tokenType transactions →
    ∃ balance : Nat, (s' .balances)[balanceKey owner tokenType]? = some balance ∧
      (balance : Int) = balanceAfter s owner tokenType transactions

section Loop

variable {s : Store} {ids : Counters} {txId height : Nat} {st st' : Staged}

/-- A row that spending an UTXO of a key finds. -/
def Known (s : Store) (st : Staged) (k : Bytes) : Prop :=
  ∃ record, overlay st.createdThisBlock (s .utxos) k = some record

theorem known_insert {cache t : Table UtxoRecord} {k a : Bytes} {record : UtxoRecord} :
    (∃ r, overlay (cache.insert k record) t a = some r) ↔
      k = a ∨ ∃ r, overlay cache t a = some r := by
  by_cases h : k = a <;> simp [overlay, h]

theorem known_createAll (created : List UnshieldedUtxo) (st : Staged) (k : Bytes) :
    Known s (created.foldl (createUtxo txId) st) k ↔
      Known s st k ∨ ∃ utxo ∈ created, outpointKey utxo = k := by
  induction created generalizing st with
  | nil => simp
  | cons utxo created ih =>
      have hone : Known s (createUtxo txId st utxo) k ↔ outpointKey utxo = k ∨ Known s st k :=
        known_insert
      rw [List.foldl_cons, ih, hone]
      simp only [List.mem_cons, exists_eq_or_imp]
      tauto

theorem known_spend {utxo : UnshieldedUtxo} (h : spendUtxo s txId st utxo = .ok st') (k : Bytes) :
    Known s st' k ↔ Known s st k := by
  obtain ⟨record, hrecord, rfl⟩ := spendUtxo_ok.mp h
  have hone : Known s (((st.stageUtxo (utxoKey utxo.intentHash utxo.outputIndex)
      { record with spendingTxId := some txId }).remove .utxosUnspentByOwner
      (unspentKey utxo)).addDelta utxo (-wrapI128 utxo.value) |>.touch utxo.owner txId) k ↔
      outpointKey utxo = k ∨ Known s st k := known_insert
  rw [hone]
  apply or_iff_right_of_imp
  rintro rfl
  exact ⟨record, hrecord⟩

theorem spendAll_ok_iff (txId : Nat) (spent : List UnshieldedUtxo) (st : Staged) :
    (∃ st', spent.foldlM (spendUtxo s txId) st = .ok st') ↔
      ∀ utxo ∈ spent, Known s st (outpointKey utxo) := by
  refine (foldlM_ok_iff (I := fun _ a => ∀ k, Known s a k ↔ Known s st k)
    (P := fun _ utxo => Known s st (outpointKey utxo)) (fun _ => Iff.rfl) ?_ ?_ spent).trans ?_
  · intro done utxo a ha
    rw [← ha]
    constructor
    · rintro ⟨b, hb⟩
      obtain ⟨record, hrecord, -⟩ := spendUtxo_ok.mp hb
      exact ⟨record, hrecord⟩
    · rintro ⟨record, hrecord⟩
      exact ⟨_, spendUtxo_ok.mpr ⟨record, hrecord, rfl⟩⟩
  · intro done utxo a b ha hb k
    rw [known_spend hb, ha]
  · constructor
    · intro h utxo hmem
      obtain ⟨done, rest, hcut⟩ := List.append_of_mem hmem
      exact h done utxo rest hcut
    · rintro h done utxo rest rfl
      exact h utxo (by simp)

def PairKeys (deltas : Table Int) : Prop :=
  ∀ k delta, deltas[k]? = some delta → ∃ owner tokenType, k = balanceKey owner tokenType

theorem PairKeys.addDelta (st : Staged) (h : PairKeys st.balanceDeltas) (utxo : UnshieldedUtxo) (amount : Int) :
    PairKeys (st.addDelta utxo amount).balanceDeltas := by
  intro k delta hk
  rw [Staged.addDelta, get_insert] at hk
  split at hk
  · rename_i he
    exact ⟨utxo.owner, utxo.tokenType, he.symm⟩
  · exact h k delta hk

theorem PairKeys.createAll (created : List UnshieldedUtxo) (h : PairKeys st.balanceDeltas) :
    PairKeys (created.foldl (createUtxo txId) st).balanceDeltas := by
  induction created generalizing st with
  | nil => exact h
  | cons utxo created ih =>
      apply ih
      exact PairKeys.addDelta ((st.stageUtxo _ _).put .utxosUnspentByOwner _ _) h utxo _

theorem PairKeys.spendAll {spent : List UnshieldedUtxo} (h : PairKeys st.balanceDeltas)
    (hrun : spent.foldlM (spendUtxo s txId) st = .ok st') : PairKeys st'.balanceDeltas := by
  refine foldlM_invariant (I := fun a => PairKeys a.balanceDeltas) hrun h ?_
  intro utxo _ a b ha hb
  obtain ⟨record, -, rfl⟩ := spendUtxo_ok.mp hb
  exact PairKeys.addDelta ((a.stageUtxo _ _).remove .utxosUnspentByOwner _) ha utxo _

structure Progress (s : Store) (done : List AppliedTransaction) (st : Staged) : Prop where
  known : ∀ k, Known s st k ↔ k ∈ s .utxos ∨
    ∃ created ∈ done.flatMap AppliedTransaction.createdUtxos, outpointKey created = k
  deltas : Deltas st.balanceDeltas (blockMoves 0 done.zipIdx)
  keys : PairKeys st.balanceDeltas

theorem Progress.start (s : Store) (ids : Counters) : Progress s [] (Staged.start ids) where
  known := by
    intro k
    simp [Known, Staged.start, overlay, mem_iff]
  deltas := by
    intro owner tokenType
    simp [Staged.start, blockMoves]
  keys := by
    intro k delta hk
    simp [Staged.start] at hk

theorem createAll_deltas (id : Nat) {new : List UtxoMove} (created : List UnshieldedUtxo)
    (h : Deltas st.balanceDeltas new) :
    Deltas (created.foldl (createUtxo txId) st).balanceDeltas
      (new ++ created.map (Move.create id)) := by
  induction created generalizing st new with
  | nil => simpa using h
  | cons utxo created ih =>
      rw [List.map_cons, List.append_cons]
      exact ih (h.create txId id utxo)

theorem spendAll_deltas (id : Nat) {new : List UtxoMove} {spent : List UnshieldedUtxo}
    (h : Deltas st.balanceDeltas new) (hrun : spent.foldlM (spendUtxo s txId) st = .ok st') :
    Deltas st'.balanceDeltas (new ++ spent.map (Move.spend id)) := by
  refine foldlM_induct hrun
    (I := fun done a => Deltas a.balanceDeltas (new ++ done.map (Move.spend id))) (by simpa) ?_
  intro done utxo a b _ ha hb
  rw [List.map_append, ← List.append_assoc]
  exact ha.spend id hb

theorem known_spendAll {spent : List UnshieldedUtxo}
    (hrun : spent.foldlM (spendUtxo s txId) st = .ok st') (k : Bytes) :
    Known s st' k ↔ Known s st k := by
  refine foldlM_invariant (I := fun a => Known s a k ↔ Known s st k) hrun Iff.rfl ?_
  intro utxo _ a b ha hb
  rw [known_spend hb, ha]

theorem Known.congr (hcaches : utxoCaches st' = utxoCaches st) (k : Bytes) :
    Known s st' k ↔ Known s st k := by
  have hcreated : st'.createdThisBlock = st.createdThisBlock := congrArg Prod.fst hcaches
  rw [Known, Known, hcreated]

variable {done : List AppliedTransaction} {applied : AppliedTransaction} {index : Nat}

def created (st : Staged) (applied : AppliedTransaction) : Staged :=
  applied.createdUtxos.foldl (createUtxo st.ids.nextTxId)
    (stageKeyIndexes { st with ids := { st.ids with nextTxId := increment st.ids.nextTxId } } applied
      st.ids.nextTxId)

theorem Progress.created_known (h : Progress s done st) (k : Bytes) :
    Known s (created st applied) k ↔ k ∈ s .utxos ∨
      ∃ c ∈ (done ++ [applied]).flatMap AppliedTransaction.createdUtxos, outpointKey c = k := by
  have hcaches : utxoCaches (stageKeyIndexes
      { st with ids := { st.ids with nextTxId := increment st.ids.nextTxId } } applied st.ids.nextTxId) =
      utxoCaches st := stageKeyIndexes_caches _ _
  rw [created, known_createAll, Known.congr hcaches, h.known]
  simp only [List.flatMap_append, List.flatMap_singleton, List.mem_append, or_and_right, exists_or,
    or_assoc]

theorem Progress.ok_iff (h : Progress s done st) :
    (∃ st', writeTransaction s height st (applied, index) = .ok st') ↔ Accepts s done applied := by
  have hspends := spendAll_ok_iff (s := s) st.ids.nextTxId applied.spentUtxos (created st applied)
  constructor
  · rintro ⟨st', hrun⟩ utxo hmem
    obtain ⟨st₁, st₂, actionIds, st₃, h₁, -⟩ := writeTransaction_ok.mp hrun
    exact h.created_known _ |>.mp (hspends.mp ⟨st₁, h₁⟩ utxo hmem)
  · intro hok
    obtain ⟨st₁, h₁⟩ := hspends.mpr fun utxo hmem => (h.created_known _).mpr (hok utxo hmem)
    exact ⟨_, writeTransaction_ok.mpr ⟨st₁, _, _, _, h₁, rfl, rfl, rfl⟩⟩

theorem Progress.step (h : Progress s done st)
    (hrun : writeTransaction s height st (applied, index) = .ok st') :
    Progress s (done ++ [applied]) st' := by
  obtain ⟨st₁, st₂, actionIds, st₃, h₁, h₂, h₃, rfl⟩ := writeTransaction_ok.mp hrun
  have hcaches : utxoCaches st₃ = utxoCaches st₁ :=
    (writeLedgerEvents_frame (s := s) (q := .metadata) (by decide) h₃).2.trans
      (writeContractActions_frame (q := .metadata) (by decide) h₂).2
  have hdeltas : st₃.balanceDeltas = st₁.balanceDeltas := congrArg (fun c => c.2.1) hcaches
  have hkeys : (stageKeyIndexes
      { st with ids := { st.ids with nextTxId := increment st.ids.nextTxId } } applied
      st.ids.nextTxId).balanceDeltas = st.balanceDeltas := by
    exact congrArg (fun c => c.2.1) (stageKeyIndexes_caches _ _)
  refine ⟨?_, ?_, ?_⟩
  · intro k
    have hlast : Known s (st₃.put .txs (be 8 st.ids.nextTxId)
        (txRecord height index applied actionIds st.ids.nextEventId st₃.ids.nextEventId)) k ↔
        Known s st₁ k := Known.congr hcaches k
    rw [hlast, known_spendAll h₁]
    exact h.created_known k
  · have hstart : Deltas (stageKeyIndexes
        { st with ids := { st.ids with nextTxId := increment st.ids.nextTxId } } applied
        st.ids.nextTxId).balanceDeltas (blockMoves 0 done.zipIdx) := by
      rw [hkeys]
      exact h.deltas
    have hmoves : blockMoves 0 (done ++ [applied]).zipIdx = blockMoves 0 done.zipIdx ++
        applied.createdUtxos.map (Move.create done.length) ++
        applied.spentUtxos.map (Move.spend done.length) := by
      simp [blockMoves, List.zipIdx_append, txMoves]
    rw [hmoves]
    change Deltas st₃.balanceDeltas _
    rw [hdeltas]
    exact spendAll_deltas done.length (createAll_deltas done.length _ hstart) h₁
  · change PairKeys st₃.balanceDeltas
    rw [hdeltas]
    refine PairKeys.spendAll (PairKeys.createAll applied.createdUtxos ?_) h₁
    rw [hkeys]
    exact h.keys

theorem loop_ok_iff (s : Store) (ids : Counters) (height : Nat)
    (transactions : List AppliedTransaction) :
    (∃ st, transactions.zipIdx.foldlM (writeTransaction s height) (Staged.start ids) = .ok st) ↔
      Accepted s transactions := by
  refine (foldlM_ok_iff (I := fun done a => Progress s (done.map Prod.fst) a)
    (P := fun done entry => Accepts s (done.map Prod.fst) entry.1) (Progress.start s ids)
    (fun done entry a ha => ha.ok_iff) ?_ _).trans ?_
  · intro done entry a b ha hb
    rw [List.map_append]
    exact ha.step hb
  · constructor
    · rintro h done applied rest rfl
      have hcut : (done ++ applied :: rest).zipIdx =
          done.zipIdx ++ (applied, done.length) :: rest.zipIdx (done.length + 1) := by
        simp [List.zipIdx_append, List.zipIdx_cons]
      have haccepts := h _ _ _ hcut
      rwa [List.zipIdx_map_fst] at haccepts
    · intro h done entry rest hcut
      apply h (done.map Prod.fst) entry.1 (rest.map Prod.fst)
      have hmap := congrArg (List.map Prod.fst) hcut
      rwa [List.zipIdx_map_fst, List.map_append, List.map_cons] at hmap

theorem loop_progress {transactions : List AppliedTransaction}
    (h : transactions.zipIdx.foldlM (writeTransaction s height) (Staged.start ids) = .ok st) :
    Progress s transactions st := by
  have hall := foldlM_induct h (I := fun done a => Progress s (done.map Prod.fst) a)
    (Progress.start s ids) (fun done entry a b _ ha hb => by
      rw [List.map_append]
      exact ha.step hb)
  rwa [List.zipIdx_map_fst] at hall

end Loop

section Block

variable {s s' : Store} {block : Block} {transactions : List AppliedTransaction}
  {ledgerStateKey : Bytes} {window : LedgerStateWindow} {ids ids' : Counters}

/-- The sign of a `u128` read as an `i128`. -/
theorem wrapI128_nonneg_iff {x : Int} (h : 0 ≤ x) (hx : x < 2 ^ 128) :
    0 ≤ wrapI128 x ↔ x < 2 ^ 127 := by
  rw [wrapI128]
  rw [Int.bmod_def]
  omega

theorem wrapI128_lt (x : Int) : wrapI128 x < 2 ^ 127 := by
  rw [wrapI128]
  rw [Int.bmod_def]
  omega

theorem writeBalances_ok_iff (rows : List (Bytes × Int)) (batch : StoreBatch) :
    (∃ batch', rows.foldlM (writeBalance s) batch = .ok batch') ↔ ∀ row ∈ rows,
      0 ≤ wrapI128 (wrapI128 (((s .balances)[row.1]?.getD 0 : Nat) : Int) + row.2) := by
  refine (foldlM_ok_iff (I := fun _ _ => True) (P := fun _ row =>
    0 ≤ wrapI128 (wrapI128 (((s .balances)[row.1]?.getD 0 : Nat) : Int) + row.2)) trivial ?_
    (fun _ _ _ _ _ _ => trivial) rows).trans ?_
  · intro done row a _
    simp [writeBalance_ok]
  · constructor
    · intro h row hmem
      obtain ⟨done, rest, hcut⟩ := List.append_of_mem hmem
      exact h done row rest hcut
    · rintro h done row rest rfl
      exact h row (by simp)

/-- The wrapped sum that the balance loop computes is the wrapped true balance. -/
theorem updated_eq (owner tokenType : ByteArr 32) :
    wrapI128 (wrapI128 (((s .balances)[balanceKey owner tokenType]?.getD 0 : Nat) : Int) +
      wrapI128 (total owner tokenType (blockMoves 0 transactions.zipIdx))) =
      wrapI128 (balanceAfter s owner tokenType transactions) :=
  wrapI128_add _ _

theorem stored_balance {st : Staged} {balances : StoreBatch} (ledgerStateKey : Bytes)
    (window : LedgerStateWindow)
    (hloop : transactions.zipIdx.foldlM (writeTransaction s block.height) (Staged.start ids) = .ok st)
    (htail : st.balanceDeltas.toList.foldlM (writeBalance s) st.batch = .ok balances)
    {owner tokenType : ByteArr 32} (htouch : TouchedPair owner tokenType transactions) :
    ∃ updated : Nat, (updated : Int) = wrapI128 (balanceAfter s owner tokenType transactions) ∧
      (commit s (blockBatch s block transactions ledgerStateKey window ids st balances)
        .balances)[balanceKey owner tokenType]? = some updated := by
  have hdelta : st.balanceDeltas[balanceKey owner tokenType]? =
      some (wrapI128 (total owner tokenType (blockMoves 0 transactions.zipIdx))) :=
    ((loop_progress hloop).deltas owner tokenType).trans (if_pos htouch)
  rw [← updated_eq]
  exact (blockBatch_balances ledgerStateKey window hloop htail (balanceKey owner tokenType)).1 _
    hdelta

/-- The block is written with exact balances when every pair that it touches
ends up below the range of an `i128`. -/
theorem balances_exact_iff (block : Block) (ledgerStateKey : Bytes) (window : LedgerStateWindow)
    (ids : Counters) (hrange : InRange s transactions) :
    (∃ s' ids', writeBlock s block transactions ledgerStateKey window ids = .ok (s', ids') ∧
        ExactBalances s s' transactions) ↔
      Accepted s transactions ∧ ∀ owner tokenType, TouchedPair owner tokenType transactions →
        balanceAfter s owner tokenType transactions < 2 ^ 127 := by
  constructor
  · rintro ⟨s', ids', hblock, hexact⟩
    obtain ⟨st, balances, hloop, htail, rfl, rfl⟩ := writeBlock_ok.mp hblock
    refine ⟨(loop_ok_iff s ids block.height transactions).mp ⟨st, hloop⟩, ?_⟩
    intro owner tokenType htouch
    obtain ⟨updated, hu, hget⟩ := stored_balance ledgerStateKey window hloop htail htouch
    obtain ⟨balance, hbalance, heq⟩ := hexact owner tokenType htouch
    obtain rfl := Option.some.inj (hget.symm.trans hbalance)
    rw [← heq, hu]
    exact wrapI128_lt _
  · rintro ⟨haccepted, hbound⟩
    obtain ⟨st, hloop⟩ := (loop_ok_iff s ids block.height transactions).mpr haccepted
    have hprogress := loop_progress hloop
    have hrow : ∀ row ∈ st.balanceDeltas.toList,
        0 ≤ wrapI128 (wrapI128 (((s .balances)[row.1]?.getD 0 : Nat) : Int) + row.2) := by
      rintro ⟨k, delta⟩ hmem
      rw [mem_rows] at hmem
      obtain ⟨owner, tokenType, rfl⟩ := hprogress.keys k delta hmem
      rw [hprogress.deltas] at hmem
      split at hmem
      · rename_i htouch
        obtain rfl := Option.some.inj hmem
        obtain ⟨hlow, hhigh⟩ := hrange owner tokenType transactions [] (by simp)
        rw [updated_eq, wrapI128_nonneg_iff hlow hhigh]
        exact hbound owner tokenType htouch
      · cases hmem
    obtain ⟨balances, htail⟩ := (writeBalances_ok_iff (s := s) _ st.batch).mpr hrow
    refine ⟨_, _, writeBlock_ok.mpr ⟨st, balances, hloop, htail, rfl, rfl⟩, ?_⟩
    intro owner tokenType htouch
    obtain ⟨updated, hu, hget⟩ := stored_balance ledgerStateKey window hloop htail htouch
    refine ⟨updated, hget, ?_⟩
    obtain ⟨hlow, -⟩ := hrange owner tokenType transactions [] (by simp)
    rw [hu, wrapI128_of_lt hlow (hbound owner tokenType htouch)]

theorem halfRange_lt : (2 : Nat) ^ 127 < 2 ^ 128 := by decide

def halfRange : AppliedTransaction :=
  { emptyTransaction with
    createdUtxos := [{ sampleUtxo with value := 2 ^ 127, value_lt := halfRange_lt }] }

theorem fresh_balance (owner tokenType : ByteArr 32) (transactions : List AppliedTransaction) :
    balanceAfter fresh owner tokenType transactions =
      total owner tokenType (blockMoves 0 transactions.zipIdx) := by
  rw [balanceAfter, fresh_other (by decide), get_empty]
  simp

theorem inRange_created {utxo : UnshieldedUtxo} :
    InRange fresh [{ emptyTransaction with createdUtxos := [utxo] }] := by
  intro owner tokenType done rest hcut
  have hvalue := utxo.value_lt
  rw [fresh_balance]
  cases done with
  | nil => simp [blockMoves, total]
  | cons applied done =>
      obtain ⟨rfl, hnil⟩ := List.cons.inj hcut
      obtain ⟨rfl, rfl⟩ := List.append_eq_nil_iff.mp hnil.symm
      have htotal : total owner tokenType (blockMoves 0
          [({ emptyTransaction with createdUtxos := [utxo] }, 0)]) = weight owner tokenType utxo := by
        simp [blockMoves, txMoves, emptyTransaction, total, net, Move.delta]
      have hweight : weight owner tokenType utxo ≤ utxo.value := by
        rw [weight]
        split <;> omega
      rw [List.zipIdx_cons, List.zipIdx_nil, htotal]
      omega

theorem balances_exact_small :
    (∃ s' ids', writeBlock fresh (emptyBlock 0 zero_lt_u64)
        [{ emptyTransaction with createdUtxos := [sampleUtxo] }] [] [] (Counters.load fresh) =
          .ok (s', ids') ∧
        ExactBalances fresh s' [{ emptyTransaction with createdUtxos := [sampleUtxo] }]) ↔
      Accepted fresh [{ emptyTransaction with createdUtxos := [sampleUtxo] }] ∧
        ∀ owner tokenType,
          TouchedPair owner tokenType [{ emptyTransaction with createdUtxos := [sampleUtxo] }] →
          balanceAfter fresh owner tokenType
            [{ emptyTransaction with createdUtxos := [sampleUtxo] }] < 2 ^ 127 :=
  balances_exact_iff (emptyBlock 0 zero_lt_u64) [] [] (Counters.load fresh) inRange_created

/-- Half the range of a `u128` is a negative `i128`. -/
theorem half_range_halts : InRange fresh [halfRange] ∧
    writeBlock fresh (emptyBlock 0 zero_lt_u64) [halfRange] [] [] (Counters.load fresh) =
      .error "balance underflow" :=
  ⟨inRange_created, by rfl⟩

end Block

end Nightfrost.BalanceRange
