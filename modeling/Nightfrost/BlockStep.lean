import Nightfrost.EntityLog

namespace Nightfrost.BlockStep

open ByteOrder Tables Partitions Domain Schema WriteBlock Staging ExceptFold EntityLog

section Touched

variable {s : Store} {st st' : Staged}

def Touched (st : Staged) (k : Bytes) : Prop :=
  ∃ owner txIds txId, st.touchedAddresses[owner]? = some txIds ∧ txId ∈ txIds ∧
    k = prefixedU64Key owner txId

theorem Touched.congr {k : Bytes} (h : st'.touchedAddresses = st.touchedAddresses) :
    Touched st' k ↔ Touched st k := by
  rw [Touched, h, Touched]

theorem touched_touch (owner : ByteArr 32) (txId : Nat) (k : Bytes) :
    Touched (st.touch owner txId) k ↔ Touched st k ∨ k = prefixedU64Key owner.val txId := by
  simp only [Touched, Staged.touch, get_insert]
  constructor
  · rintro ⟨a, ids, id, ha, hid, rfl⟩
    split at ha
    · rename_i he
      subst he
      obtain rfl := Option.some.inj ha
      rcases List.mem_append.mp hid with hold | hnew
      · cases hg : st.touchedAddresses[owner.val]? with
        | none => simp [hg] at hold
        | some ids => exact .inl ⟨_, ids, id, hg, by simpa [hg] using hold, rfl⟩
      · exact .inr (by rw [List.mem_singleton.mp hnew])
    · exact .inl ⟨a, ids, id, ha, hid, rfl⟩
  · rintro (⟨a, ids, id, ha, hid, rfl⟩ | rfl)
    · by_cases he : owner.val = a
      · subst he
        exact ⟨_, ids ++ [txId], id, by simp [ha], List.mem_append_left _ hid, rfl⟩
      · exact ⟨a, ids, id, by simp [he, ha], hid, rfl⟩
    · exact ⟨owner.val, _, txId, if_pos rfl, List.mem_append_right _ List.mem_cons_self, rfl⟩

theorem touched_createUtxos (txId : Nat) (created : List UnshieldedUtxo) (k : Bytes) :
    Touched (created.foldl (createUtxo txId) st) k ↔
      Touched st k ∨ k ∈ created.map (fun utxo => prefixedU64Key utxo.owner.val txId) := by
  induction created generalizing st with
  | nil => simp
  | cons utxo created ih =>
      have hone : Touched (createUtxo txId st utxo) k ↔
          Touched st k ∨ k = prefixedU64Key utxo.owner.val txId := touched_touch _ _ _
      rw [List.foldl_cons, ih, hone, List.map_cons, List.mem_cons]
      tauto

theorem touched_spendUtxos {txId : Nat} {spent : List UnshieldedUtxo}
    (h : spent.foldlM (spendUtxo s txId) st = .ok st') (k : Bytes) :
    Touched st' k ↔
      Touched st k ∨ k ∈ spent.map (fun utxo => prefixedU64Key utxo.owner.val txId) := by
  refine foldlM_induct h (I := fun done a => Touched a k ↔
    Touched st k ∨ k ∈ done.map (fun utxo => prefixedU64Key utxo.owner.val txId)) ?_ ?_
  · simp
  · rintro done utxo a b - hI hb
    obtain ⟨record, -, rfl⟩ := spendUtxo_ok.mp hb
    rw [touched_touch]
    have hold : Touched (((a.stageUtxo (utxoKey utxo.intentHash utxo.outputIndex)
        { record with spendingTxId := some txId }).remove .utxosUnspentByOwner
        (unspentKey utxo)).addDelta utxo (-wrapI128 utxo.value)) k ↔ Touched a k := Iff.rfl
    rw [hold, hI, List.map_append, List.mem_append, List.map_cons, List.map_nil,
      List.mem_singleton]
    tauto

theorem writeTransaction_touched {height : Nat} {applied : AppliedTransaction} {index : Nat}
    (hrun : writeTransaction s height st (applied, index) = .ok st') (k : Bytes) :
    Touched st' k ↔ Touched st k ∨
      k ∈ (owners applied.createdUtxos applied.spentUtxos).map
        (fun owner => prefixedU64Key owner.val st.ids.nextTxId) := by
  obtain ⟨st₁, st₂, ids, st₃, h₁, h₂, h₃, rfl⟩ := writeTransaction_ok.mp hrun
  have hcaches : utxoCaches st₃ = utxoCaches st₁ :=
    (writeLedgerEvents_frame (s := s) (q := .metadata) (by decide) h₃).2.trans
      (writeContractActions_frame (q := .metadata) (by decide) h₂).2
  have hkeys : ∀ a, Touched (stageKeyIndexes a applied st.ids.nextTxId) k ↔ Touched a k := by
    intro a
    have h : utxoCaches (stageKeyIndexes a applied st.ids.nextTxId) = utxoCaches a :=
      stageKeyIndexes_caches applied st.ids.nextTxId
    exact Touched.congr (congrArg (fun c => c.2.2) h)
  have hlast : Touched (st₃.put .txs (be 8 st.ids.nextTxId)
      (txRecord height index applied ids st.ids.nextEventId st₃.ids.nextEventId)) k ↔
      Touched st₁ k := Touched.congr (congrArg (fun c => c.2.2) hcaches)
  rw [hlast, touched_spendUtxos h₁, touched_createUtxos, hkeys]
  have hstart : Touched { st with ids := { st.ids with nextTxId := increment st.ids.nextTxId } } k ↔
      Touched st k := Iff.rfl
  rw [hstart, owners, List.map_map, List.map_append, List.mem_append, or_assoc]
  rfl

end Touched

section Loop

variable {s : Store} {height : Nat} {transactions : List AppliedTransaction} {st' : Staged}

theorem addTransactions_counters (height : Nat) (entries : List (AppliedTransaction × Nat)) (log : ChainLog) :
    (entries.foldl (ChainLog.addTransaction height) log).counters =
      idsAfter log.counters (entries.map Prod.fst) := by
  induction entries generalizing log with
  | nil => rfl
  | cons entry entries ih =>
      have hone : (log.addTransaction height entry).counters = idsAfter log.counters [entry.1] := by
        simp [idsAfter, ChainLog.counters, ChainLog.addTransaction, newActions, newEvents]
      rw [List.foldl_cons, ih, hone, List.map_cons]
      exact (idsAfter_append log.counters [entry.1] _).symm

theorem Room.pass {ids : Counters} (hroom : Room ids transactions)
    {done rest : List (AppliedTransaction × Nat)} {entry : AppliedTransaction × Nat}
    (hcut : transactions.zipIdx = done ++ entry :: rest) :
    entry.1 ∈ transactions ∧ Room (idsAfter ids (done.map Prod.fst)) [entry.1] := by
  have hcut' : transactions = done.map Prod.fst ++ entry.1 :: rest.map Prod.fst := by
    rw [← List.zipIdx_map_fst 0 transactions, hcut, List.map_append, List.map_cons]
  rw [hcut'] at hroom ⊢
  exact ⟨List.mem_append_right _ List.mem_cons_self, hroom.behind⟩

theorem writeTransactions_tables {ids : Counters} {log : ChainLog}
    (hrun : transactions.zipIdx.foldlM (writeTransaction s height) (Staged.start ids) = .ok st')
    (hroom : Room ids transactions) (hd : ∀ applied ∈ transactions, Derived height applied) (hids : ids = log.counters)
    (h : LogTables s log) (haddr : IndexOf (s .addrTxs) log.txs addressKeys) :
    st'.ids = (log.addTransactions height transactions).counters ∧
      LogTables (pending s st') (log.addTransactions height transactions) ∧
      Files (fun k => k ∈ s .addrTxs ∨ Touched st' k) (log.addTransactions height transactions).txs
        addressKeys := by
  refine foldlM_split hrun (I := fun done a =>
    a.ids = (done.foldl (ChainLog.addTransaction height) log).counters ∧
      LogTables (pending s a) (done.foldl (ChainLog.addTransaction height) log) ∧
      Files (fun k => k ∈ s .addrTxs ∨ Touched a k)
        (done.foldl (ChainLog.addTransaction height) log).txs addressKeys) ?_ ?_
  · refine ⟨hids, h, ?_⟩
    intro k
    have hnone : ¬ Touched (Staged.start ids) k := by simp [Touched, Staged.start]
    exact ⟨fun hk => (haddr k).mp (hk.resolve_right hnone), fun hk => .inl ((haddr k).mpr hk)⟩
  · rintro done ⟨applied, index⟩ rest a b hcut ⟨hi, ht, hf⟩ hb
    rw [List.foldl_append]
    obtain ⟨hmem, hroom'⟩ := Room.pass hroom hcut
    rw [hids, ← addTransactions_counters height, ← hi] at hroom'
    obtain ⟨hi', ht'⟩ := writeTransaction_tables hb hroom' (hd applied hmem) hi ht
    refine ⟨hi', ht', hf.push ?_⟩
    intro k
    rw [writeTransaction_touched hb, hi]
    simp only [addressKeys, ChainLog.newTx, txRecord, ChainLog.counters, or_assoc]

end Loop

section Tail

variable {s : Store} {q : Part}

theorem writeBalance_ok {batch batch' : StoreBatch} {row : Bytes × Int} :
    writeBalance s batch row = .ok batch' ↔
      0 ≤ wrapI128 (wrapI128 (((s .balances)[row.1]?.getD 0 : Nat) : Int) + row.2) ∧
        batch' = batch ++ [Op.put .balances row.1
          (wrapI128 (wrapI128 (((s .balances)[row.1]?.getD 0 : Nat) : Int) + row.2)).toNat] := by
  unfold writeBalance
  simp only
  split
  · rename_i h
    simp [h]
  · rename_i h
    simp [Int.not_lt.mp h, eq_comm]

theorem writeBalances_frame (hq : q ≠ .balances) {rows : List (Bytes × Int)}
    {batch batch' : StoreBatch} (h : rows.foldlM (writeBalance s) batch = .ok batch') :
    commit s batch' q = commit s batch q := by
  refine foldlM_frame (f := fun b => commit s b q) h ?_
  intro row _ a b hb
  obtain ⟨-, rfl⟩ := writeBalance_ok.mp hb
  simp [hq]

theorem writeBalances_get {rows : List (Bytes × Int)} {batch batch' : StoreBatch}
    (h : rows.foldlM (writeBalance s) batch = .ok batch')
    (hkeys : ∀ a ∈ rows, ∀ b ∈ rows, a.1 = b.1 → a = b) :
    (∀ row ∈ rows, ∃ updated : Nat,
        (updated : Int) = wrapI128 (wrapI128 (((s .balances)[row.1]?.getD 0 : Nat) : Int) + row.2) ∧
        (commit s batch' .balances)[row.1]? = some updated) ∧
      ∀ k, k ∉ rows.map Prod.fst →
        (commit s batch' .balances)[k]? = (commit s batch .balances)[k]? := by
  refine foldlM_induct h (I := fun done b => (∀ row ∈ rows, row ∈ done → ∃ updated : Nat,
      (updated : Int) = wrapI128 (wrapI128 (((s .balances)[row.1]?.getD 0 : Nat) : Int) + row.2) ∧
      (commit s b .balances)[row.1]? = some updated) ∧
    ∀ k, k ∉ done.map Prod.fst → (commit s b .balances)[k]? = (commit s batch .balances)[k]?)
    ?_ ?_ |>.imp_left (fun hrows row hrow => hrows row hrow hrow)
  · exact ⟨fun row _ hmem => absurd hmem (List.not_mem_nil), fun k _ => rfl⟩
  · rintro done row a b hrow ⟨hdone, hother⟩ hb
    obtain ⟨hpos, rfl⟩ := writeBalance_ok.mp hb
    constructor
    · intro row' hrow' hmem
      by_cases hk : row.1 = row'.1
      · obtain rfl := hkeys row hrow row' hrow' hk
        exact ⟨_, Int.toNat_of_nonneg hpos, by simp⟩
      · have hold : row' ∈ done := by
          rcases List.mem_append.mp hmem with h | h
          · exact h
          · exact absurd (congrArg Prod.fst (List.mem_singleton.mp h)).symm hk
        obtain ⟨updated, hu, hget⟩ := hdone row' hrow' hold
        exact ⟨updated, hu, by simpa [hk] using hget⟩
    · intro k hk
      rw [List.map_append, List.mem_append, not_or] at hk
      have hne : row.1 ≠ k := fun he => hk.2 (by simp [he])
      simpa [hne] using hother k hk.1

theorem writeAddresses_frame (hq : q ≠ .addrTxs) (rows : List (Bytes × List Nat))
    (batch : StoreBatch) : commit s (rows.foldl writeAddress batch) q = commit s batch q := by
  refine foldl_frame (f := fun b => commit s b q) ?_ rows batch
  intro b row
  rw [writeAddress, commit_append]
  apply commit_other
  intro o ho
  obtain ⟨txId, -, rfl⟩ := List.mem_map.mp ho
  exact hq

theorem mem_commit_entries (s : Store) (owner : Bytes) (txIds : List Nat) (k : Bytes) :
    k ∈ commit s (txIds.map (fun txId => Op.put .addrTxs (prefixedU64Key owner txId) ())) .addrTxs ↔
      k ∈ s .addrTxs ∨ ∃ txId ∈ txIds, k = prefixedU64Key owner txId := by
  induction txIds generalizing s with
  | nil => simp
  | cons txId txIds ih =>
      rw [List.map_cons, commit_cons, ih, apply_put_same, Tables.mem_insert]
      simp only [List.mem_cons, exists_eq_or_imp]
      tauto

theorem mem_writeAddresses (rows : List (Bytes × List Nat)) (batch : StoreBatch) (k : Bytes) :
    k ∈ commit s (rows.foldl writeAddress batch) .addrTxs ↔
      k ∈ commit s batch .addrTxs ∨ ∃ row ∈ rows, ∃ txId ∈ row.2, k = prefixedU64Key row.1 txId := by
  induction rows generalizing batch with
  | nil => simp
  | cons row rows ih =>
      rw [List.foldl_cons, ih, writeAddress, commit_append, mem_commit_entries]
      simp only [List.mem_cons, exists_eq_or_imp, or_assoc]

theorem registrations_frame (hq : q ≠ .cnightRegistrations) (height : Nat)
    (events : List DustRegistrationEvent) (batch : StoreBatch) :
    commit s (events.foldl (applyRegistrationEvent s height) batch) q = commit s batch q := by
  refine foldl_frame (f := fun b => commit s b q) ?_ events batch
  intro b event
  simp [applyRegistrationEvent, hq]

theorem metaOps_frame (hq : q ≠ .metadata) (block : Block) (ids : Counters)
    (nextWindow : LedgerStateWindow) : commit s (metaOps block ids nextWindow) q = s q := by
  have hpart : ∀ o ∈ metaOps block ids nextWindow, o.part = .metadata := by
    rw [metaOps]
    split <;> simp [Op.put]
  exact commit_other (fun o ho => by rwa [hpart o ho])

theorem metaOps_get (block : Block) (ids : Counters) (nextWindow : LedgerStateWindow) :
    metaU64 (commit s (metaOps block ids nextWindow)) lastHeightKey = some block.height ∧
      metaU64 (commit s (metaOps block ids nextWindow)) tipTimestampKey = some block.timestamp ∧
      metaU64 (commit s (metaOps block ids nextWindow)) nextTxIdKey = some ids.nextTxId ∧
      metaU64 (commit s (metaOps block ids nextWindow)) nextActionIdKey = some ids.nextActionId ∧
      metaU64 (commit s (metaOps block ids nextWindow)) nextEventIdKey = some ids.nextEventId ∧
      ledgerStateWindow (commit s (metaOps block ids nextWindow)) = nextWindow := by
  have hne := metaKeys_nodup
  have hrev := List.nodup_reverse.mpr metaKeys_nodup
  simp only [metaKeys, List.reverse_cons, List.reverse_nil, List.nil_append, List.cons_append,
    List.nodup_cons, List.mem_cons, List.not_mem_nil, or_false, not_or] at hne hrev
  by_cases h : block.height = 0 <;>
    simp only [metaOps, metaU64, ledgerStateWindow, h, if_true, if_false, List.cons_append,
      List.nil_append, commit_cons, commit_nil, apply_put_same, get_insert, hne, hrev, and_self]

end Tail

/-- The batch that `writeBlock` commits after a transaction loop that ended in
`st` and a balance loop that ended in `balances`. -/
def blockBatch (s : Store) (block : Block) (transactions : List AppliedTransaction)
    (ledgerStateKey : Bytes) (window : LedgerStateWindow) (ids : Counters) (st : Staged)
    (balances : StoreBatch) : StoreBatch :=
  block.dustRegistrationEvents.foldl (applyRegistrationEvent s block.height)
      (st.touchedAddresses.toList.foldl writeAddress balances) ++
    [Op.put .blocks (be 8 block.height) (blockRecord block ids.nextTxId transactions.length),
      Op.put .blocksByHash block.hash.val block.height] ++
    metaOps block st.ids
      (trimWindow (window ++ [(ledgerStateKey, block.protocolVersion.ledgerVersion)]))

theorem writeBlock_ok {s s' : Store} {block : Block} {transactions : List AppliedTransaction}
    {ledgerStateKey : Bytes} {window : LedgerStateWindow} {ids ids' : Counters} :
    writeBlock s block transactions ledgerStateKey window ids = .ok (s', ids') ↔
      ∃ st balances,
        transactions.zipIdx.foldlM (writeTransaction s block.height) (Staged.start ids) = .ok st ∧
        st.balanceDeltas.toList.foldlM (writeBalance s) st.batch = .ok balances ∧
        s' = commit s (blockBatch s block transactions ledgerStateKey window ids st balances) ∧
        ids' = st.ids := by
  simp only [writeBlock, bind_ok, Except.ok.injEq, Prod.mk.injEq]
  constructor
  · rintro ⟨st, h, balances, hb, rfl, rfl⟩
    exact ⟨st, balances, h, hb, rfl, rfl⟩
  · rintro ⟨st, balances, h, hb, rfl, rfl⟩
    exact ⟨st, h, balances, hb, rfl, rfl⟩

def loopParts : List Part :=
  [.walletTxIndices, .txsByHash, .txsByIdentifier, .utxos, .utxosUnspentByOwner, .contractActions,
    .contractActionsByAddr, .contractStates, .contracts, .ledgerEvents, .eventsByContract,
    .walletDustEvents, .dustGeneration, .dustGenByOwner, .txs]

def tailParts : List Part :=
  [.balances, .addrTxs, .cnightRegistrations, .blocks, .blocksByHash, .metadata]

section Block

variable {s : Store} {block : Block} {transactions : List AppliedTransaction}
  {ledgerStateKey : Bytes} {window : LedgerStateWindow} {ids : Counters} {st : Staged}
  {balances : StoreBatch} {q : Part}

theorem writeTransactions_frame (hq : q ∉ loopParts) {height : Nat} {st' : Staged}
    (hrun : transactions.zipIdx.foldlM (writeTransaction s height) st = .ok st') :
    pending s st' q = pending s st q := by
  refine foldlM_frame (f := fun a => pending s a q) hrun ?_
  rintro ⟨applied, index⟩ - a b hb
  obtain ⟨st₁, st₂, actionIds, st₃, h₁, h₂, h₃, rfl⟩ := writeTransaction_ok.mp hb
  simp only [loopParts, List.mem_cons, List.not_mem_nil, or_false, not_or] at hq
  rw [pending_put_other _ _ (by simp [hq]), (writeLedgerEvents_frame (by simp [hq]) h₃).1,
    (writeContractActions_frame (by simp [hq]) h₂).1, (utxos_frame (by simp [hq]) h₁).1,
    stageKeyIndexes_frame (by simp [hq])]
  rfl

theorem blockBatch_eq :
    commit s (blockBatch s block transactions ledgerStateKey window ids st balances) =
      commit (commit s (block.dustRegistrationEvents.foldl (applyRegistrationEvent s block.height)
          (st.touchedAddresses.toList.foldl writeAddress balances) ++
        [Op.put .blocks (be 8 block.height) (blockRecord block ids.nextTxId transactions.length),
          Op.put .blocksByHash block.hash.val block.height]))
        (metaOps block st.ids
          (trimWindow (window ++ [(ledgerStateKey, block.protocolVersion.ledgerVersion)]))) := by
  rw [blockBatch, commit_append]

theorem blockBatch_frame (hq : q ∉ tailParts)
    (htail : st.balanceDeltas.toList.foldlM (writeBalance s) st.batch = .ok balances) :
    commit s (blockBatch s block transactions ledgerStateKey window ids st balances) q =
      pending s st q := by
  simp only [tailParts, List.mem_cons, List.not_mem_nil, or_false, not_or] at hq
  rw [blockBatch_eq, metaOps_frame (by simp [hq]), commit_append, commit_cons, commit_cons,
    commit_nil, apply_put_other _ (by simp [hq]), apply_put_other _ (by simp [hq]),
    registrations_frame (by simp [hq]), writeAddresses_frame (by simp [hq]),
    writeBalances_frame (by simp [hq]) htail]
  rfl

theorem blockBatch_addrTxs
    (hloop : transactions.zipIdx.foldlM (writeTransaction s block.height) (Staged.start ids) = .ok st)
    (htail : st.balanceDeltas.toList.foldlM (writeBalance s) st.batch = .ok balances) (k : Bytes) :
    k ∈ commit s (blockBatch s block transactions ledgerStateKey window ids st balances) .addrTxs ↔
      k ∈ s .addrTxs ∨ Touched st k := by
  have hold : commit s balances .addrTxs = s .addrTxs := by
    rw [writeBalances_frame (by decide) htail]
    exact writeTransactions_frame (by decide) hloop
  rw [blockBatch_eq, metaOps_frame (by decide), commit_append, commit_cons, commit_cons,
    commit_nil, apply_put_other _ (by decide), apply_put_other _ (by decide),
    registrations_frame (by decide), mem_writeAddresses, hold]
  simp only [Prod.exists, mem_rows, Touched]
  constructor
  · rintro (h | ⟨owner, txIds, hrow, txId, hid, rfl⟩)
    · exact .inl h
    · exact .inr ⟨owner, txIds, txId, hrow, hid, rfl⟩
  · rintro (h | ⟨owner, txIds, txId, hrow, hid, rfl⟩)
    · exact .inl h
    · exact .inr ⟨owner, txIds, hrow, txId, hid, rfl⟩

theorem blockBatch_blocks
    (hloop : transactions.zipIdx.foldlM (writeTransaction s block.height) (Staged.start ids) = .ok st)
    (htail : st.balanceDeltas.toList.foldlM (writeBalance s) st.batch = .ok balances) :
    commit s (blockBatch s block transactions ledgerStateKey window ids st balances) .blocks =
      (s .blocks).insert (be 8 block.height)
        (blockRecord block ids.nextTxId transactions.length) := by
  rw [blockBatch_eq, metaOps_frame (by decide), commit_append, commit_cons, commit_cons,
    commit_nil, apply_put_other _ (by decide), apply_put_same, registrations_frame (by decide),
    writeAddresses_frame (by decide), writeBalances_frame (by decide) htail]
  have hold : commit s st.batch .blocks = s .blocks := writeTransactions_frame (by decide) hloop
  rw [hold]

theorem blockBatch_balances (ledgerStateKey : Bytes) (window : LedgerStateWindow)
    (hloop : transactions.zipIdx.foldlM (writeTransaction s block.height) (Staged.start ids) = .ok st)
    (htail : st.balanceDeltas.toList.foldlM (writeBalance s) st.batch = .ok balances) (k : Bytes) :
    (∀ delta, st.balanceDeltas[k]? = some delta → ∃ updated : Nat,
        (updated : Int) = wrapI128 (wrapI128 (((s .balances)[k]?.getD 0 : Nat) : Int) + delta) ∧
        (commit s (blockBatch s block transactions ledgerStateKey window ids st balances)
          .balances)[k]? = some updated) ∧
      (st.balanceDeltas[k]? = none →
        (commit s (blockBatch s block transactions ledgerStateKey window ids st balances)
          .balances)[k]? = (s .balances)[k]?) := by
  have hkeys : ∀ a ∈ st.balanceDeltas.toList, ∀ b ∈ st.balanceDeltas.toList, a.1 = b.1 → a = b := by
    rintro ⟨a, x⟩ ha ⟨b, y⟩ hb h
    obtain rfl : a = b := h
    rw [mem_rows] at ha hb
    rw [ha] at hb
    rw [Option.some.inj hb]
  obtain ⟨hrows, hother⟩ := writeBalances_get htail hkeys
  have hold : commit s st.batch .balances = s .balances := writeTransactions_frame (by decide) hloop
  have hrest : commit s (blockBatch s block transactions ledgerStateKey window ids st balances)
      .balances = commit s balances .balances := by
    rw [blockBatch_eq, metaOps_frame (by decide), commit_append, commit_cons, commit_cons,
      commit_nil, apply_put_other _ (by decide), apply_put_other _ (by decide),
      registrations_frame (by decide), writeAddresses_frame (by decide)]
  rw [hrest]
  constructor
  · intro delta hd
    exact hrows (k, delta) (mem_rows.mpr hd)
  · intro hnone
    rw [hother k, hold]
    intro hmem
    obtain ⟨⟨a, x⟩, hrow, rfl⟩ := List.mem_map.mp hmem
    rw [mem_rows, hnone] at hrow
    cases hrow

end Block

end Nightfrost.BlockStep
