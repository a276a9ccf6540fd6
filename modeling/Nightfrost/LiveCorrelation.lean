import Nightfrost.EventBackfill

namespace Nightfrost.LiveCorrelation

open ByteOrder Tables Partitions Domain Schema WriteBlock EntityLog BlockStep BlockRun Scripts
  DenseIds Offline EventBackfill

section Live

variable {s s' : Store}

/-- The correlation that the live pipeline makes, and no other. -/
def liveRecord (s : Store) (record : EventRecord) : EventRecord :=
  if record.event.grouping = .contract then
    { record with event := { record.event with
      contractActionId :=
        correlateContractActionId record.event (describe (actionsIn s record.txId)) } }
  else record

def Attributed (s : Store) : Prop :=
  ∀ (k : Bytes) record, (s .ledgerEvents)[k]? = some record → record.event.grouping = .contract →
    record.event.contractActionId = none ∨ record.event.contractActionId =
      correlateContractActionId record.event (describe (actionsIn s record.txId))

theorem correlatedIn_attributed (h : Attributed s) {k : Bytes} {record : EventRecord}
    (hget : (s .ledgerEvents)[k]? = some record) : correlatedIn s record = liveRecord s record := by
  rw [correlatedIn, liveRecord]
  split
  · rename_i hcontract
    rw [rewritten, correlated]
    have hor : ∀ x : Option Nat, x.or x = x := by
      intro x
      cases x <;> rfl
    rcases h k record hget hcontract with hnone | hsame
    · rw [hnone, Option.or_none]
    · rw [hsame, hor]
  · rfl

end Live

section Pipeline

def listed (log : ChainLog) (tx : TxRecord) : Actions :=
  tx.contractActionIds.filterMap (fun actionId => (log.actions[actionId]?).map (actionId, ·))

/-- The events of a log are correlated with the actions of their transactions. -/
structure Live (log : ChainLog) : Prop where
  ids : ∀ tx ∈ log.txs, ∀ actionId ∈ tx.contractActionIds, actionId < log.actions.length
  events : ∀ record ∈ log.events, ∃ tx, log.txs[record.txId]? = some tx ∧
    rewritten record (listed log tx) = record

theorem listed_grown {log : ChainLog} {tx : TxRecord} {more : List ContractActionRecord}
    (h : ∀ actionId ∈ tx.contractActionIds, actionId < log.actions.length) :
    listed { log with actions := log.actions ++ more } tx = listed log tx := by
  refine List.filterMap_congr fun actionId hid => ?_
  show ((log.actions ++ more)[actionId]?).map _ = _
  rw [List.getElem?_append_left (h actionId hid)]

theorem filterMap_range' {α : Type} (front rest : List α) :
    (List.range' front.length rest.length).filterMap (fun i => ((front ++ rest)[i]?).map (i, ·)) =
      (List.range' front.length rest.length).zip rest := by
  induction rest generalizing front with
  | nil => rfl
  | cons a rest ih =>
      have hhead : (front ++ a :: rest)[front.length]? = some a := by
        rw [List.getElem?_append_right (Nat.le_refl _), Nat.sub_self]
        rfl
      have htail := ih (front ++ [a])
      rw [List.length_append, List.append_assoc] at htail
      rw [List.length_cons, List.range'_succ, List.filterMap_cons_some (by rw [hhead]; rfl),
        List.zip_cons_cons]
      exact congrArg _ htail

theorem describe_newActions (txId : Nat) {height : Nat} {applied : AppliedTransaction}
    (hd : Derived height applied) (ids : List Nat) :
    describe (ids.zip (newActions txId applied)) = actionsOf applied ids := by
  rw [Derived] at hd
  rw [describe, newActions, actionsOf]
  generalize applied.contractActions = contractActions at hd
  induction contractActions generalizing ids with
  | nil =>
      rw [List.map_nil, List.zip_nil_right]
      rfl
  | cons action contractActions ih =>
      cases ids with
      | nil => rfl
      | cons actionId ids =>
          have haddress := (hd action List.mem_cons_self).1
          have hrest := ih ids (fun a ha => hd a (List.mem_cons_of_mem _ ha))
          rw [List.map_cons, List.zip_cons_cons, List.zip_cons_cons, List.map_cons, List.map_cons, hrest]
          rw [← haddress]
          rfl

theorem listed_newTx (log : ChainLog) (height index : Nat) {applied : AppliedTransaction}
    (hd : Derived height applied) :
    describe (listed { log with actions := log.actions ++ newActions log.txs.length applied }
        (log.newTx height index applied)) =
      actionsOf applied (actionIds log.actions.length applied) := by
  have hids : actionIds log.actions.length applied =
      List.range' log.actions.length (newActions log.txs.length applied).length := by
    rw [newActions, List.length_map]
    rfl
  show describe ((actionIds log.actions.length applied).filterMap _) = _
  rw [hids, filterMap_range', describe_newActions _ hd]

theorem Live.empty : Live ChainLog.empty :=
  ⟨fun _ h => absurd h List.not_mem_nil, fun _ h => absurd h List.not_mem_nil⟩

theorem Live.addTransaction {log : ChainLog} (h : Live log) {height : Nat} (index : Nat)
    {applied : AppliedTransaction} (hd : Derived height applied) :
    Live (log.addTransaction height (applied, index)) := by
  have hlen : (log.actions ++ newActions log.txs.length applied).length =
      log.actions.length + applied.contractActions.length := by
    rw [List.length_append, newActions, List.length_map]
  constructor
  · intro tx htx actionId hid
    show actionId < (log.actions ++ newActions log.txs.length applied).length
    rcases List.mem_append.mp htx with htx | htx
    · rw [hlen]
      exact Nat.lt_add_right _ (h.ids tx htx actionId hid)
    · obtain rfl := List.mem_singleton.mp htx
      rw [hlen]
      exact (List.mem_range'_1.mp hid).2
  · intro record hr
    rcases List.mem_append.mp hr with hr | hr
    · obtain ⟨tx, htx, hsame⟩ := h.events record hr
      refine ⟨tx, ?_, ?_⟩
      · show (log.txs ++ [_])[record.txId]? = some tx
        rw [List.getElem?_append_left (List.getElem?_eq_some_iff.mp htx).1]
        exact htx
      · have hgrown : listed (log.addTransaction height (applied, index)) tx = listed log tx :=
          listed_grown (h.ids tx (List.mem_of_getElem? htx))
        rw [hgrown, hsame]
    · obtain ⟨event, -, rfl⟩ := List.mem_map.mp hr
      refine ⟨log.newTx height index applied, List.getElem?_concat_length, ?_⟩
      rw [rewritten]
      rw [show describe (listed (log.addTransaction height (applied, index))
        (log.newTx height index applied)) = _ from listed_newTx log height index hd]
      have hor : ∀ x y : Option Nat, x.or (x.or y) = x.or y := by
        intro x y
        cases x <;> rfl
      show (⟨⟨_, _, _, (correlateContractActionId event _).or
        ((correlateContractActionId event _).or event.contractActionId), _⟩, _, _⟩ : EventRecord) = _
      rw [hor]
      rfl

theorem logOf_live (blocks : List DerivedBlock) : Live (logOf blocks) := by
  apply logOf_induct
  · exact Live.empty
  · intro log records h
    exact ⟨h.ids, h.events⟩
  · intro d hd entry hentry log h
    exact h.addTransaction entry.2 (d.derived _ (List.fst_mem_of_mem_zipIdx hentry))

variable {blocks : List DerivedBlock} {s s' : Store} {ids : Counters}

theorem correlatedIn_run (h : Run blocks s ids) {k : Bytes} {record : EventRecord}
    (hget : (s .ledgerEvents)[k]? = some record) : correlatedIn s record = record := by
  have htables := h.holds.tables
  obtain ⟨i, hi, -⟩ := htables.events.records.get_iff.mp hget
  obtain ⟨t, ht, hsame⟩ := (logOf_live blocks).events record (List.mem_of_getElem? hi)
  have htx : tx s record.txId = some t := htables.txs.records.get_iff.mpr ⟨_, ht, rfl⟩
  have hactions : actionsIn s record.txId = listed (logOf blocks) t := by
    rw [actionsIn]
    rw [htx]
    refine List.filterMap_congr fun actionId hid => ?_
    have hlt := (logOf_live blocks).ids t (List.mem_of_getElem? ht) actionId hid
    have hbound := htables.actions.records.bound
    rw [actionAt]
    rw [htables.actions.records.get actionId (by omega)]
  rw [correlatedIn]
  split
  · rw [hactions, hsame]
  · rfl

theorem filedIn_run (h : Run blocks s ids) {key : Bytes} (hkey : FiledIn s key) :
    key ∈ s .eventsByContract := by
  have hevents := h.holds.tables.events
  obtain ⟨k, record, hget, -, address, haddress, rfl⟩ := hkey
  obtain ⟨i, hi, rfl⟩ := hevents.records.get_iff.mp hget
  have hbound := hevents.records.bound
  have hlt := (List.getElem?_eq_some_iff.mp hi).1
  refine (hevents.byContract _).mpr ⟨i, record, hi, ?_⟩
  rw [fromBe_be (show i < 2 ^ 64 by omega), contractEventKeys, haddress]
  exact List.mem_singleton_self _

theorem finished_run (h : Run blocks s ids) (hf : Finished s s') : s' = s := by
  funext p
  by_cases hevents : p = .ledgerEvents
  · subst hevents
    apply ext_get
    intro k
    rw [hf.events k]
    cases hget : (s .ledgerEvents)[k]? with
    | none => rfl
    | some record => exact congrArg some (correlatedIn_run h hget)
  · by_cases hfile : p = .eventsByContract
    · subst hfile
      apply ext_keys
      intro key
      rw [hf.byContract key]
      exact ⟨fun hkey => hkey.elim id (filedIn_run h), .inl⟩
    · exact hf.others p hevents hfile

theorem finished_again (hf : Finished s s') {counts : BackfillCounts} {s'' : Store}
    (hrun : backfillContractEvents.run s' = (.ok counts, s'')) :
    counts.recordsRewritten = 0 ∧ s'' = s' := by
  have hb := hf.between
  obtain ⟨-, hf', hcount, -⟩ := (backfill_keeps hb).run_ok hrun
  constructor
  · rw [hcount, staleRows, List.countP_eq_zero]
    rintro ⟨k, record⟩ hrow
    have hget := mem_rows.mp hrow
    rw [hf.events] at hget
    obtain ⟨old, -, rfl⟩ := Option.map_eq_some_iff.mp hget
    rw [hb.correlatedIn, correlatedIn_correlatedIn]
    simp
  · funext p
    by_cases hevents : p = .ledgerEvents
    · subst hevents
      apply ext_get
      intro k
      rw [hf'.events, hf.events]
    · by_cases hfile : p = .eventsByContract
      · subst hfile
        apply ext_keys
        intro key
        rw [hf'.byContract, hf.byContract]
      · exact (hf'.others p hevents hfile).trans (hf.others p hevents hfile).symm

theorem completes_finished {counts : BackfillCounts} (h : Completes backfillContractEvents s counts s') :
    Finished s s' := by
  obtain ⟨t, -, -, hf, -⟩ := completes_keep (I := Between s) (fun _ hs => backfill_keeps hs)
    (Between.refl s) h
  exact hf

/-- However often a run was cut off before one completes, every contract event
has the action id and the index entry of the live pipeline, and no other event
or field has changed. -/
theorem backfill_correlates {counts : BackfillCounts} (ha : Attributed s)
    (h : Completes backfillContractEvents s counts s') :
    (∀ k : Bytes, (s' .ledgerEvents)[k]? = ((s .ledgerEvents)[k]?).map (liveRecord s)) ∧
    (∀ key : Bytes, key ∈ s' .eventsByContract ↔ key ∈ s .eventsByContract ∨ FiledIn s key) ∧
    (∀ p : Part, p ≠ .ledgerEvents → p ≠ .eventsByContract → s' p = s p) ∧
    (∀ counts' s'', backfillContractEvents.run s' = (.ok counts', s'') →
      counts'.recordsRewritten = 0 ∧ s'' = s') ∧
    ∀ blocks t ids counts' t', Run blocks t ids →
      Completes backfillContractEvents t counts' t' → t' = t := by
  have hf := completes_finished h
  refine ⟨fun k => ?_, hf.byContract, hf.others, fun counts' s'' hrun => finished_again hf hrun,
    fun blocks t ids counts' t' hrun h' => finished_run hrun (completes_finished h')⟩
  rw [hf.events k]
  cases hget : (s .ledgerEvents)[k]? with
  | none => rfl
  | some record => exact congrArg some (correlatedIn_attributed ha hget)

theorem backfill_correlates_pauses : ∃ counts s',
    Completes backfillContractEvents (pauses 3) counts s' ∧
      ((s' .ledgerEvents)[be 8 2]?).map (fun record => record.event.contractActionId) = some (some 2) := by
  have hbound : 3 ≤ 2 ^ 64 := by decide
  have hattributed : Attributed (pauses 3) := by
    intro k record hget _
    obtain ⟨i, -, rfl, -⟩ := (pauses_event hbound).mp hget
    exact .inl rfl
  obtain ⟨counts, s', hrun⟩ := completes_of_few (pauses_integrity hbound) (Between.refl _)
    (by rw [contractTxIds_pauses hbound, Finset.card_range]; decide)
  have hcompletes : Completes backfillContractEvents (pauses 3) counts s' := ⟨_, .start, hrun⟩
  refine ⟨counts, s', hcompletes, ?_⟩
  rw [(backfill_correlates hattributed hcompletes).1]
  decide +kernel

end Pipeline

end Nightfrost.LiveCorrelation
