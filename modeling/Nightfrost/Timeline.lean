import Nightfrost.Api

namespace Nightfrost.Timeline

open ByteOrder Tables Partitions Domain Schema WriteBlock MovingStore Api EntityLog BlockStep BlockRun

/-- A store that the indexer writes to while it is read: at every moment it was
written by a run over the blocks up to then. -/
structure Growing (σ : Nat → Store) (blocks : Nat → List DerivedBlock) : Prop where
  run : ∀ t, ∃ ids, Run (blocks t) (σ t) ids
  consecutive : ∀ t, Consecutive (blocks t)
  grows : ∀ t, blocks t <+: blocks (t + 1)

variable {σ : Nat → Store} {blocks : Nat → List DerivedBlock} {t t' : Nat}

theorem Growing.later (h : Growing σ blocks) (hle : t ≤ t') : blocks t <+: blocks t' := by
  induction t' with
  | zero =>
      obtain rfl := Nat.le_zero.mp hle
      exact List.prefix_refl _
  | succ t' ih =>
      rcases Nat.le_succ_iff.mp hle with hlt | rfl
      · exact (ih hlt).trans (h.grows t')
      · exact List.prefix_refl _

theorem Growing.length_le (h : Growing σ blocks) (hle : t ≤ t') :
    (blocks t).length ≤ (blocks t').length :=
  (h.later hle).length_le

theorem Growing.grown (h : Growing σ blocks) (hle : t ≤ t') :
    Grown (fun n => (blocks t).length ≤ n) (logOf (blocks t)) (logOf (blocks t')) := by
  obtain ⟨more, hmore⟩ := h.later hle
  have hc := h.consecutive t'
  rw [← hmore] at hc ⊢
  exact hc.grown

theorem logOf_blocks_mono (blocks more : List DerivedBlock) :
    (logOf blocks).blocks <+: (logOf (blocks ++ more)).blocks := by
  induction more using List.reverseRecOn with
  | nil => rw [List.append_nil]
  | append_singleton more d ih =>
      rw [← List.append_assoc, logOf_push]
      exact ih.trans (List.prefix_append _ _)

theorem Growing.block (h : Growing σ blocks) (hle : t ≤ t') {height : Nat}
    (hheight : height < (blocks t).length) :
    ∃ record, (logOf (blocks t)).blocks[height]? = some record ∧
      Schema.block (σ t') height = some record := by
  obtain ⟨more, hmore⟩ := h.later hle
  obtain ⟨ids, hrun⟩ := h.run t'
  have hrecords := (hrun.cursor (h.consecutive t')).records
  have hget := List.getElem?_eq_getElem
    (show height < (logOf (blocks t)).blocks.length by rwa [logOf_blocks_length])
  have hbound := hrecords.bound
  have hlen := h.length_le hle
  rw [logOf_blocks_length] at hbound
  refine ⟨_, hget, ?_⟩
  obtain ⟨rest, hrest⟩ := logOf_blocks_mono (blocks t) more
  rw [Schema.block, hrecords.get height (by omega), ← hmore, ← hrest,
    List.getElem?_append_left (by rwa [logOf_blocks_length])]
  exact hget

theorem Growing.lastHeight (h : Growing σ blocks) (t : Nat) :
    lastIndexedHeight (σ t) = if blocks t = [] then none else some ((blocks t).length - 1) := by
  obtain ⟨ids, hrun⟩ := h.run t
  have hc := h.consecutive t
  rw [(hrun.cursor hc).lastHeight]
  rcases List.eq_nil_or_concat (blocks t) with hnil | ⟨front, d, he⟩
  · rw [hnil]
    rfl
  · rw [he, List.concat_eq_append] at hc ⊢
    rw [List.getLast?_concat, if_neg (by simp), Option.map_some, hc.of_push.2]
    simp

theorem Growing.currentTip (h : Growing σ blocks) (t : Nat) :
    (blocks t = [] ∧ Api.currentTip.run σ t = .ok (none, t + 1)) ∨
      ∃ record, blocks t ≠ [] ∧ (logOf (blocks t)).blocks[(blocks t).length - 1]? = some record ∧
        Api.currentTip.run σ t = .ok (some ⟨(blocks t).length - 1, record.hash⟩, t + 2) := by
  have hlast := h.lastHeight t
  by_cases hnil : blocks t = []
  · refine .inl ⟨hnil, ?_⟩
    rw [if_pos hnil] at hlast
    rw [Api.currentTip, run_bind, run_query, hlast]
    rfl
  · rw [if_neg hnil] at hlast
    have hpos := List.length_pos_of_ne_nil hnil
    obtain ⟨record, hrecord, hblock⟩ := h.block (Nat.le_succ t)
      (show (blocks t).length - 1 < (blocks t).length by omega)
    refine .inr ⟨record, hnil, hrecord, ?_⟩
    rw [Api.currentTip, run_bind, run_query, hlast]
    change (query (Schema.block · ((blocks t).length - 1)) >>= _ : Handler _).run σ (t + 1) = _
    rw [run_bind, run_query]
    dsimp only
    rw [hblock]
    rfl

theorem Growing.response (h : Growing σ blocks) {T : Type} (results : T) (t : Nat) :
    ∃ answer t', (Api.response results).run σ t = .ok (answer, t') ∧ answer.results = results := by
  rw [Api.response, run_bind]
  rcases h.currentTip t with ⟨-, htip⟩ | ⟨record, -, -, htip⟩ <;>
  · rw [htip]
    exact ⟨_, _, rfl, rfl⟩

theorem growing_still {blocks : List DerivedBlock} {s : Store} {ids : Counters} (h : Run blocks s ids)
    (hc : Consecutive blocks) : Growing (fun _ => s) (fun _ => blocks) :=
  ⟨fun _ => ⟨ids, h⟩, fun _ => hc, fun _ => List.prefix_refl blocks⟩

theorem growing_once {blocks more : List DerivedBlock} {s s' : Store} {ids ids' : Counters}
    (h : Run blocks s ids) (h' : Run (blocks ++ more) s' ids') (hc : Consecutive (blocks ++ more))
    (n : Nat) : Growing (fun t => if t < n then s else s')
      (fun t => if t < n then blocks else blocks ++ more) where
  run := by
    intro t
    by_cases ht : t < n
    · rw [if_pos ht, if_pos ht]
      exact ⟨ids, h⟩
    · rw [if_neg ht, if_neg ht]
      exact ⟨ids', h'⟩
  consecutive := by
    intro t
    by_cases ht : t < n
    · rw [if_pos ht]
      exact hc.earlier
    · rw [if_neg ht]
      exact hc
  grows := by
    intro t
    by_cases ht : t + 1 < n
    · rw [if_pos ht, if_pos (Nat.lt_of_succ_lt ht)]
    · rw [if_neg ht]
      by_cases ht' : t < n
      · rw [if_pos ht']
        exact List.prefix_append blocks more
      · rw [if_neg ht']

section Transactions

structure Owned (log : ChainLog) : Prop where
  events : ∀ record ∈ log.events, record.txId < log.txs.length
  actions : ∀ record ∈ log.actions, record.txId < log.txs.length

theorem Owned.addTransaction {log : ChainLog} (h : Owned log) (height : Nat)
    (entry : AppliedTransaction × Nat) : Owned (log.addTransaction height entry) := by
  have hlen : (log.addTransaction height entry).txs.length = log.txs.length + 1 := by
    simp [ChainLog.addTransaction]
  constructor
  · intro record hr
    rw [hlen]
    rcases List.mem_append.mp hr with hold | hnew
    · exact Nat.lt_succ_of_lt (h.events record hold)
    · obtain ⟨event, -, rfl⟩ := List.mem_map.mp hnew
      exact Nat.lt_succ_self _
  · intro record hr
    rw [hlen]
    rcases List.mem_append.mp hr with hold | hnew
    · exact Nat.lt_succ_of_lt (h.actions record hold)
    · obtain ⟨action, -, rfl⟩ := List.mem_map.mp hnew
      exact Nat.lt_succ_self _

theorem logOf_owned (blocks : List DerivedBlock) : Owned (logOf blocks) := by
  apply logOf_induct
  · exact ⟨fun _ hr => absurd hr List.not_mem_nil, fun _ hr => absurd hr List.not_mem_nil⟩
  · intro log records h
    exact ⟨h.events, h.actions⟩
  · intro d _ entry _ log h
    exact h.addTransaction d.block.height entry

theorem Growing.tx (h : Growing σ blocks) (hle : t ≤ t') {txId : Nat} {record : TxRecord}
    (hget : (logOf (blocks t)).txs[txId]? = some record) : Schema.tx (σ t') txId = some record := by
  obtain ⟨ids, hrun⟩ := h.run t'
  obtain ⟨new, hnew, -⟩ := (h.grown hle).txs
  refine (hrun.holds.tables.txs.records.get_iff).mpr ⟨txId, ?_, rfl⟩
  rw [hnew, List.getElem?_append_left (List.getElem?_eq_some_iff.mp hget).1]
  exact hget

theorem Growing.action (h : Growing σ blocks) (hle : t ≤ t') {actionId : Nat}
    {record : ContractActionRecord} (hget : (logOf (blocks t)).actions[actionId]? = some record) :
    ((σ t') .contractActions)[be 8 actionId]? = some record := by
  obtain ⟨ids, hrun⟩ := h.run t'
  obtain ⟨new, hnew, -⟩ := (h.grown hle).actions
  refine (hrun.holds.tables.actions.records.get_iff).mpr ⟨actionId, ?_, rfl⟩
  rw [hnew, List.getElem?_append_left (List.getElem?_eq_some_iff.mp hget).1]
  exact hget

theorem txs_later (h : Growing σ blocks) (hle : t ≤ t') {txId : Nat}
    (hlt : txId < (logOf (blocks t)).txs.length) :
    (logOf (blocks t')).txs[txId]? = (logOf (blocks t)).txs[txId]? := by
  obtain ⟨new, hnew, -⟩ := (h.grown hle).txs
  rw [hnew, List.getElem?_append_left hlt]

theorem blocks_later (h : Growing σ blocks) (hle : t ≤ t') {height : Nat}
    (hlt : height < (blocks t).length) :
    (logOf (blocks t')).blocks[height]? = (logOf (blocks t)).blocks[height]? := by
  obtain ⟨more, hmore⟩ := h.later hle
  obtain ⟨rest, hrest⟩ := logOf_blocks_mono (blocks t) more
  rw [← hmore, ← hrest, List.getElem?_append_left (by rwa [logOf_blocks_length])]

end Transactions

section Events

theorem Growing.event (h : Growing σ blocks) (hle : t ≤ t') {eventId : Nat} {record : EventRecord}
    (hget : (logOf (blocks t)).events[eventId]? = some record) :
    ((σ t') .ledgerEvents)[be 8 eventId]? = some record := by
  obtain ⟨ids, hrun⟩ := h.run t'
  obtain ⟨new, hnew, -⟩ := (h.grown hle).events
  refine (hrun.holds.tables.events.records.get_iff).mpr ⟨eventId, ?_, rfl⟩
  rw [hnew, List.getElem?_append_left (List.getElem?_eq_some_iff.mp hget).1]
  exact hget

theorem Growing.event_height (h : Growing σ blocks) {eventId : Nat} {record : EventRecord}
    (hget : (logOf (blocks t)).events[eventId]? = some record) :
    record.blockHeight < (blocks t).length := by
  obtain ⟨new, hnew, hheights⟩ := (h.consecutive t).heights.events
  rw [hnew] at hget
  exact hheights record (List.mem_of_getElem? (by simpa [ChainLog.empty] using hget))

theorem Growing.eventResponse (h : Growing σ blocks) (hle : t ≤ t') {eventId : Nat}
    {record : EventRecord} (hget : (logOf (blocks t)).events[eventId]? = some record) :
    ∃ block, (logOf (blocks t)).blocks[record.blockHeight]? = some block ∧
      (EventResponse.new eventId record).run σ t' = .ok (.of eventId record block, t' + 1) := by
  obtain ⟨block, hrecord, hblock⟩ := h.block hle (h.event_height hget)
  refine ⟨block, hrecord, ?_⟩
  rw [EventResponse.new, run_bind, run_query]
  dsimp only
  rw [hblock]
  rfl

end Events

end Nightfrost.Timeline
