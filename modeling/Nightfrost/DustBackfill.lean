import Nightfrost.Offline
import Nightfrost.RoundRobin

namespace Nightfrost.DustBackfill

open ByteOrder Tables Partitions Domain Schema WriteBlock Staging ExceptFold EntityLog BlockStep
  BlockRun Scripts DenseIds Offline RoundRobin

structure DustBackfillCounts where
  rebuilt : Bool
  eventsScanned : Nat
  generationEntriesWritten : Nat
  deriving DecidableEq

def generationInfoOf : LedgerEventAttributes → Option DustGenerationInfo
  | .dustInitialUtxo _ generationInfo _ => some generationInfo
  | .dustGenerationDtimeUpdate generationInfo _ _ => some generationInfo
  | _ => none

structure Rebuild where
  newGeneration : List (Bytes × DustGenerationRecord)
  newOwner : List Bytes
  counts : DustBackfillCounts

def rebuildEvent (rebuild : Rebuild) (record : EventRecord) : Rebuild :=
  let counts := { rebuild.counts with eventsScanned := rebuild.counts.eventsScanned + 1 }
  match generationInfoOf record.event.attributes with
  | none => { rebuild with counts }
  | some generationInfo =>
      { newGeneration := rebuild.newGeneration ++
          [(generationInfo.nightUtxoHash.val, ⟨generationInfo, record.txId⟩)]
        newOwner := rebuild.newOwner ++ [generationInfo.owner ++ generationInfo.nightUtxoHash.val]
        counts := { counts with generationEntriesWritten := counts.generationEntriesWritten + 1 } }

def rebuildEvents (records : List EventRecord) : Rebuild :=
  records.foldl rebuildEvent ⟨[], [], ⟨false, 0, 0⟩⟩

def oldKeys {V : Type} (t : Table V) (newKeys : List Bytes) : List Bytes :=
  (t.toList.map Prod.fst).filter (fun key => key ∉ newKeys)

/-- Removals and insertions, whose keys are disjoint. -/
def opStreams (s : Store) (rebuild : Rebuild) : List StoreBatch :=
  [(oldKeys (s .dustGeneration) (rebuild.newGeneration.map Prod.fst)).map (Op.remove .dustGeneration),
    (oldKeys (s .dustGenByOwner) rebuild.newOwner).map (Op.remove .dustGenByOwner),
    rebuild.newGeneration.map (fun entry => Op.put .dustGeneration entry.1 entry.2),
    rebuild.newOwner.map (fun key => Op.put .dustGenByOwner key ())]

def applyRound (st : StoreBatch × Nat) (round : StoreBatch) : Job (StoreBatch × Nat) := do
  let batch := st.1 ++ round
  let pending := st.2 + round.length
  if pending ≥ commitEvery then
    commitBatch batch
    pure ([], 0)
  else pure (batch, pending)

/-- The sync at the end changes no row. -/
def backfillDustGeneration : Job DustBackfillCounts := do
  let entries ← look (fun s => (s .ledgerEvents).toList)
  let rebuild := rebuildEvents (entries.map Prod.snd)
  let streams ← look (fun s => opStreams s rebuild)
  let (batch, _) ← (roundRobin streams).foldlM applyRound ([], 0)
  commitBatch batch
  pure { rebuild.counts with rebuilt := true }

section Replay

def replayEvent (st : Staged) (record : EventRecord) : Staged :=
  stageDustGeneration st record.txId record.event.attributes

/-- The dust tables that the pipeline makes of an event log, from empty ones. -/
def replay (records : List EventRecord) : Store :=
  commit (fun _ => ∅) (records.foldl replayEvent (Staged.start ⟨0, 0, 0⟩)).batch

def generationOps (record : EventRecord) : StoreBatch :=
  match generationInfoOf record.event.attributes with
  | none => []
  | some generationInfo =>
      [.put .dustGeneration generationInfo.nightUtxoHash.val ⟨generationInfo, record.txId⟩,
        .put .dustGenByOwner (generationInfo.owner ++ generationInfo.nightUtxoHash.val) ()]

theorem replayEvent_batch (st : Staged) (record : EventRecord) :
    (replayEvent st record).batch = st.batch ++ generationOps record := by
  rw [replayEvent, generationOps]
  cases record.event.attributes with
  | dustInitialUtxo output info index => exact List.append_assoc _ _ _
  | dustGenerationDtimeUpdate info index path => exact List.append_assoc _ _ _
  | _ => exact (List.append_nil _).symm

theorem replay_eq (records : List EventRecord) :
    replay records = commit (fun _ => ∅) (records.flatMap generationOps) := by
  have general : ∀ (records : List EventRecord) (st : Staged),
      (records.foldl replayEvent st).batch = st.batch ++ records.flatMap generationOps := by
    intro records
    induction records with
    | nil => exact fun st => (List.append_nil _).symm
    | cons record records ih =>
        intro st
        rw [List.foldl_cons, ih, replayEvent_batch, List.flatMap_cons, List.append_assoc]
  rw [replay, general]
  rfl

theorem rebuildEvents_append (records : List EventRecord) (record : EventRecord) :
    rebuildEvents (records ++ [record]) = rebuildEvent (rebuildEvents records) record := by
  rw [rebuildEvents, List.foldl_append]
  rfl

theorem filter_stream {p : Part} {k : Bytes} {f : Rebuild → StoreBatch}
    (hstart : f (rebuildEvents []) = [])
    (hstep : ∀ st record, (f (rebuildEvent st record)).filter (Op.touches p k) =
      (f st).filter (Op.touches p k) ++ (generationOps record).filter (Op.touches p k))
    (records : List EventRecord) : (f (rebuildEvents records)).filter (Op.touches p k) =
      (records.flatMap generationOps).filter (Op.touches p k) := by
  induction records using List.reverseRecOn with
  | nil => rw [hstart, List.flatMap_nil]
  | append_singleton records record ih =>
      rw [rebuildEvents_append, hstep, ih, List.flatMap_append, List.filter_append, List.flatMap_singleton]

theorem filter_generation (records : List EventRecord) (k : Bytes) :
    ((rebuildEvents records).newGeneration.map
        (fun entry => (Op.put .dustGeneration entry.1 entry.2 : Op Part.Val))).filter
          (Op.touches .dustGeneration k) =
      (records.flatMap generationOps).filter (Op.touches .dustGeneration k) := by
  refine filter_stream (f := fun rebuild => rebuild.newGeneration.map
    (fun entry => Op.put .dustGeneration entry.1 entry.2)) rfl (fun st record => ?_) records
  rw [rebuildEvent, generationOps]
  split
  · exact (List.append_nil _).symm
  · rename_i info _
    rw [List.map_append, List.filter_append]
    apply congrArg _
    have hother : (Op.put .dustGenByOwner (info.owner ++ info.nightUtxoHash.val) () :
        Op Part.Val).touches .dustGeneration k = false := decide_eq_false (by simp [Op.put])
    rw [List.map_singleton, List.filter_cons, List.filter_cons, List.filter_cons, hother]
    rfl

theorem filter_owner (records : List EventRecord) (k : Bytes) :
    ((rebuildEvents records).newOwner.map
        (fun key => (Op.put .dustGenByOwner key () : Op Part.Val))).filter
          (Op.touches .dustGenByOwner k) =
      (records.flatMap generationOps).filter (Op.touches .dustGenByOwner k) := by
  refine filter_stream (f := fun rebuild => rebuild.newOwner.map
    (fun key => Op.put .dustGenByOwner key ())) rfl (fun st record => ?_) records
  rw [rebuildEvent, generationOps]
  split
  · exact (List.append_nil _).symm
  · rename_i info _
    rw [List.map_append, List.filter_append]
    apply congrArg _
    have hother : (Op.put .dustGeneration info.nightUtxoHash.val ⟨info, record.txId⟩ :
        Op Part.Val).touches .dustGenByOwner k = false := decide_eq_false (by simp [Op.put])
    rw [List.map_singleton]
    exact (List.filter_cons_of_neg (by rw [hother]; decide)).symm

end Replay

section Streams

variable {s : Store} {records : List EventRecord} {k : Bytes}

theorem filter_other {p q : Part} {α : Type} {f : α → Op Part.Val} (hf : ∀ a, (f a).part = q)
    (hpq : q ≠ p) (as : List α) : (as.map f).filter (Op.touches p k) = [] := by
  rw [List.filter_eq_nil_iff]
  intro o ho htouches
  obtain ⟨a, -, rfl⟩ := List.mem_map.mp ho
  exact hpq ((hf a).symm.trans (of_decide_eq_true htouches).1)

theorem filter_keys {p : Part} {α : Type} {f : α → Op Part.Val} {as : List α}
    (h : ∀ a ∈ as, (f a).key ≠ k) : (as.map f).filter (Op.touches p k) = [] := by
  rw [List.filter_eq_nil_iff]
  intro o ho htouches
  obtain ⟨a, ha, rfl⟩ := List.mem_map.mp ho
  exact h a ha (of_decide_eq_true htouches).2

theorem mem_oldKeys {V : Type} {t : Table V} {newKeys : List Bytes} :
    k ∈ oldKeys t newKeys ↔ k ∈ t ∧ k ∉ newKeys := by
  rw [oldKeys, List.mem_filter, decide_eq_true_eq, List.mem_map, mem_iff]
  refine and_congr_left fun _ => ?_
  constructor
  · rintro ⟨⟨a, v⟩, hrow, rfl⟩
    exact ⟨v, mem_rows.mp hrow⟩
  · rintro ⟨v, hget⟩
    exact ⟨(k, v), mem_rows.mpr hget, rfl⟩

def rebuildOps (s : Store) (records : List EventRecord) : StoreBatch :=
  (roundRobin (opStreams s (rebuildEvents records))).flatten

/-- A row of the rebuild is decided by the insertions of its key, or by the
removal of its key where nothing inserts it, in whatever order the streams come. -/
theorem rebuildOps_generation : (rebuildOps s records).filter (Op.touches .dustGeneration k) =
    if k ∈ (rebuildEvents records).newGeneration.map Prod.fst then
      (records.flatMap generationOps).filter (Op.touches .dustGeneration k)
    else ((oldKeys (s .dustGeneration) ((rebuildEvents records).newGeneration.map Prod.fst)).map
      (Op.remove .dustGeneration : Bytes → Op Part.Val)).filter (Op.touches .dustGeneration k) := by
  have howner : ((oldKeys (s .dustGenByOwner) (rebuildEvents records).newOwner).map
      (Op.remove .dustGenByOwner : Bytes → Op Part.Val)).filter (Op.touches .dustGeneration k) = [] :=
    filter_other (q := .dustGenByOwner) (fun _ => rfl) (by decide) _
  have howner' : ((rebuildEvents records).newOwner.map
      (fun key => (Op.put .dustGenByOwner key () : Op Part.Val))).filter
        (Op.touches .dustGeneration k) = [] := filter_other (q := .dustGenByOwner) (fun _ => rfl) (by decide) _
  rw [rebuildOps, opStreams]
  split
  · rename_i hnew
    have hremove : ((oldKeys (s .dustGeneration) ((rebuildEvents records).newGeneration.map Prod.fst)).map
        (Op.remove .dustGeneration : Bytes → Op Part.Val)).filter (Op.touches .dustGeneration k) = [] := by
      refine filter_keys fun key hkey he => ?_
      obtain rfl : key = k := he
      exact (mem_oldKeys.mp hkey).2 hnew
    rw [← filter_generation]
    apply filter_roundRobin [_, _] [_] _
    · intro stream hstream
      rcases List.mem_pair.mp hstream with rfl | rfl
      · exact hremove
      · exact howner
    · intro stream hstream
      obtain rfl := List.mem_singleton.mp hstream
      exact howner'
  · rename_i hold
    have hinsert : ((rebuildEvents records).newGeneration.map
        (fun entry => (Op.put .dustGeneration entry.1 entry.2 : Op Part.Val))).filter
          (Op.touches .dustGeneration k) = [] := by
      refine filter_keys fun entry hentry he => hold ?_
      exact List.mem_map.mpr ⟨entry, hentry, he⟩
    refine filter_roundRobin [] [_, _, _] _ (fun _ h => absurd h List.not_mem_nil) ?_
    intro stream hstream
    rcases List.mem_cons.mp hstream with rfl | hstream
    · exact howner
    · rcases List.mem_pair.mp hstream with rfl | rfl
      · exact hinsert
      · exact howner'

theorem rebuildOps_owner : (rebuildOps s records).filter (Op.touches .dustGenByOwner k) =
    if k ∈ (rebuildEvents records).newOwner then
      (records.flatMap generationOps).filter (Op.touches .dustGenByOwner k)
    else ((oldKeys (s .dustGenByOwner) (rebuildEvents records).newOwner).map
      (Op.remove .dustGenByOwner : Bytes → Op Part.Val)).filter (Op.touches .dustGenByOwner k) := by
  have hgeneration : ((oldKeys (s .dustGeneration) ((rebuildEvents records).newGeneration.map Prod.fst)).map
      (Op.remove .dustGeneration : Bytes → Op Part.Val)).filter (Op.touches .dustGenByOwner k) = [] :=
    filter_other (q := .dustGeneration) (fun _ => rfl) (by decide) _
  have hgeneration' : ((rebuildEvents records).newGeneration.map
      (fun entry => (Op.put .dustGeneration entry.1 entry.2 : Op Part.Val))).filter
        (Op.touches .dustGenByOwner k) = [] := filter_other (q := .dustGeneration) (fun _ => rfl) (by decide) _
  rw [rebuildOps, opStreams]
  split
  · rename_i hnew
    have hremove : ((oldKeys (s .dustGenByOwner) (rebuildEvents records).newOwner).map
        (Op.remove .dustGenByOwner : Bytes → Op Part.Val)).filter (Op.touches .dustGenByOwner k) = [] := by
      refine filter_keys fun key hkey he => ?_
      obtain rfl : key = k := he
      exact (mem_oldKeys.mp hkey).2 hnew
    rw [← filter_owner]
    refine filter_roundRobin [_, _, _] [] _ ?_ (fun _ h => absurd h List.not_mem_nil)
    intro stream hstream
    rcases List.mem_cons.mp hstream with rfl | hstream
    · exact hgeneration
    · rcases List.mem_pair.mp hstream with rfl | rfl
      · exact hremove
      · exact hgeneration'
  · rename_i hold
    have hinsert : ((rebuildEvents records).newOwner.map
        (fun key => (Op.put .dustGenByOwner key () : Op Part.Val))).filter
          (Op.touches .dustGenByOwner k) = [] := by
      refine filter_keys fun key hkey he => hold ?_
      obtain rfl : key = k := he
      exact hkey
    apply filter_roundRobin [_] [_, _] _
    · intro stream hstream
      obtain rfl := List.mem_singleton.mp hstream
      exact hgeneration
    · intro stream hstream
      rcases List.mem_pair.mp hstream with rfl | rfl
      · exact hgeneration'
      · exact hinsert

theorem commit_rebuilt {p : Part} {newKeys : List Bytes} {ops replay : StoreBatch}
    (hfilter : ops.filter (Op.touches p k) = if k ∈ newKeys then replay.filter (Op.touches p k)
      else ((oldKeys (s p) newKeys).map (Op.remove p)).filter (Op.touches p k))
    (hnew : k ∈ newKeys ↔ ∃ o ∈ replay, o.touches p k = true) :
    (commit s ops p)[k]? = (commit (fun _ => ∅) replay p)[k]? := by
  rw [commit_filter s ops, hfilter, commit_filter _ replay]
  split
  · rename_i hmem
    obtain ⟨o, ho, htouches⟩ := hnew.mp hmem
    exact commit_touched ⟨o, List.mem_filter.mpr ⟨ho, htouches⟩, htouches⟩
  · rename_i hmem
    have hnone : replay.filter (Op.touches p k) = [] := by
      rw [List.filter_eq_nil_iff]
      exact fun o ho htouches => hmem (hnew.mpr ⟨o, ho, htouches⟩)
    rw [hnone, commit_nil, get_empty, ← commit_filter]
    by_cases hk : k ∈ s p
    · have hold : k ∈ oldKeys (s p) newKeys := mem_oldKeys.mpr ⟨hk, hmem⟩
      have hremoved : ∀ (keys : List Bytes) (s : Store), (s p)[k]? = none →
          (commit s (keys.map (Op.remove p)) p)[k]? = none := by
        intro keys
        induction keys with
        | nil => exact fun s hs => hs
        | cons key keys ih =>
            intro s hs
            rw [List.map_cons, commit_cons]
            apply ih _
            rw [apply_remove_same, get_erase]
            split
            · rfl
            · exact hs
      have htouched : ∃ o ∈ (oldKeys (s p) newKeys).map (Op.remove p : Bytes → Op Part.Val),
          o.touches p k = true :=
        ⟨Op.remove p k, List.mem_map_of_mem hold, decide_eq_true ⟨rfl, rfl⟩⟩
      exact (commit_touched htouched).trans (hremoved _ (fun _ => ∅) (get_empty k))
    · have hnone' : ((oldKeys (s p) newKeys).map (Op.remove p : Bytes → Op Part.Val)).filter
          (Op.touches p k) = [] := by
        refine filter_keys fun key hkey he => hk ?_
        obtain rfl : key = k := he
        exact (mem_oldKeys.mp hkey).1
      rw [commit_filter, hnone', commit_nil]
      exact Option.eq_none_iff_forall_ne_some.mpr fun v hv => hk (mem_iff.mpr ⟨v, hv⟩)

end Streams

section Runs

variable {s₀ s s' : Store} {records : List EventRecord} {k : Bytes}

def dustParts : List Part := [.dustGeneration, .dustGenByOwner]

def eventsOf (s : Store) : List EventRecord := (s .ledgerEvents).toList.map Prod.snd

theorem mem_newGeneration : k ∈ (rebuildEvents records).newGeneration.map Prod.fst ↔
    ∃ o ∈ records.flatMap generationOps, o.touches .dustGeneration k = true := by
  have hfilter := filter_generation records k
  constructor
  · intro hk
    obtain ⟨entry, hentry, rfl⟩ := List.mem_map.mp hk
    have hmem : (Op.put .dustGeneration entry.1 entry.2 : Op Part.Val) ∈
        (records.flatMap generationOps).filter (Op.touches .dustGeneration entry.1) := by
      rw [← hfilter]
      exact List.mem_filter.mpr ⟨List.mem_map_of_mem hentry, decide_eq_true ⟨rfl, rfl⟩⟩
    exact ⟨_, (List.mem_filter.mp hmem).1, (List.mem_filter.mp hmem).2⟩
  · rintro ⟨o, ho, htouches⟩
    have hmem := List.mem_filter.mpr ⟨ho, htouches⟩
    rw [← hfilter] at hmem
    obtain ⟨entry, hentry, rfl⟩ := List.mem_map.mp (List.mem_filter.mp hmem).1
    exact List.mem_map.mpr ⟨entry, hentry, (of_decide_eq_true htouches).2⟩

theorem mem_newOwner : k ∈ (rebuildEvents records).newOwner ↔
    ∃ o ∈ records.flatMap generationOps, o.touches .dustGenByOwner k = true := by
  have hfilter := filter_owner records k
  constructor
  · intro hk
    have hmem : (Op.put .dustGenByOwner k () : Op Part.Val) ∈
        (records.flatMap generationOps).filter (Op.touches .dustGenByOwner k) := by
      rw [← hfilter]
      exact List.mem_filter.mpr ⟨List.mem_map_of_mem hk, decide_eq_true ⟨rfl, rfl⟩⟩
    exact ⟨_, (List.mem_filter.mp hmem).1, (List.mem_filter.mp hmem).2⟩
  · rintro ⟨o, ho, htouches⟩
    have hmem := List.mem_filter.mpr ⟨ho, htouches⟩
    rw [← hfilter] at hmem
    obtain ⟨key, hkey, rfl⟩ := List.mem_map.mp (List.mem_filter.mp hmem).1
    obtain rfl : key = k := (of_decide_eq_true htouches).2
    exact hkey

theorem rebuildOps_commit {p : Part} (hp : p ∈ dustParts) :
    commit s (rebuildOps s records) p = replay records p := by
  apply ext_get
  intro k
  rw [replay_eq]
  rcases List.mem_pair.mp hp with rfl | rfl
  · exact commit_rebuilt rebuildOps_generation mem_newGeneration
  · exact commit_rebuilt rebuildOps_owner mem_newOwner

theorem touched_of_mem_replay {p : Part} (hk : k ∈ replay records p) :
    ∃ o ∈ records.flatMap generationOps, o.touches p k = true := by
  by_contra hnot
  have hnone : (records.flatMap generationOps).filter (Op.touches p k) = [] := by
    rw [List.filter_eq_nil_iff]
    exact fun o ho htouches => hnot ⟨o, ho, htouches⟩
  obtain ⟨v, hv⟩ := mem_iff.mp hk
  rw [replay_eq, commit_filter, hnone, commit_nil, get_empty] at hv
  cases hv

/-- The writes of a run: no removal of a row that should exist. -/
inductive Rebuilding (records : List EventRecord) : Op Part.Val → Prop
  | remove {p : Part} {k : Bytes} (hp : p ∈ dustParts) (h : k ∉ replay records p) :
      Rebuilding records (.remove p k)
  | put {p : Part} {k : Bytes} {v : p.Val} (hp : p ∈ dustParts) : Rebuilding records (.put p k v)

theorem rebuildOps_rebuilding {o : Op Part.Val} (ho : o ∈ rebuildOps s records) :
    Rebuilding records o := by
  obtain ⟨stream, hstream, hmem⟩ := mem_roundRobin ho
  simp only [opStreams, List.mem_cons, List.not_mem_nil, or_false] at hstream
  rcases hstream with rfl | rfl | rfl | rfl
  · obtain ⟨key, hkey, rfl⟩ := List.mem_map.mp hmem
    refine .remove (by decide) fun hreplay => (mem_oldKeys.mp hkey).2 ?_
    exact mem_newGeneration.mpr (touched_of_mem_replay hreplay)
  · obtain ⟨key, hkey, rfl⟩ := List.mem_map.mp hmem
    refine .remove (by decide) fun hreplay => (mem_oldKeys.mp hkey).2 ?_
    exact mem_newOwner.mpr (touched_of_mem_replay hreplay)
  · obtain ⟨entry, -, rfl⟩ := List.mem_map.mp hmem
    exact .put (by decide)
  · obtain ⟨key, -, rfl⟩ := List.mem_map.mp hmem
    exact .put (by decide)

structure Kept (s₀ : Store) (s : Store) : Prop where
  others : ∀ p, p ∉ dustParts → s p = s₀ p
  rows : ∀ p ∈ dustParts, ∀ k, k ∈ s₀ p → k ∈ replay (eventsOf s₀) p → k ∈ s p

theorem Kept.refl (s : Store) : Kept s s := ⟨fun _ _ => rfl, fun _ _ _ h _ => h⟩

theorem Kept.apply (h : Kept s₀ s) {o : Op Part.Val} (ho : Rebuilding (eventsOf s₀) o) :
    Kept s₀ (o.apply s) := by
  cases ho with
  | remove hp hgarbage =>
      refine ⟨fun q hq => ?_, fun q hq k hk hreplay => ?_⟩
      · rw [apply_remove_other s (fun he => hq (by rw [he]; exact hp))]
        exact h.others q hq
      · obtain ⟨v, hv⟩ := mem_iff.mp (h.rows q hq k hk hreplay)
        refine mem_iff.mpr ⟨v, ?_⟩
        rw [get_apply_of_not_touches, hv]
        intro htouches
        obtain ⟨rfl, rfl⟩ := of_decide_eq_true htouches
        exact hgarbage hreplay
  | put hp =>
      refine ⟨fun q hq => ?_, fun q hq k hk hreplay => ?_⟩
      · rw [apply_put_other s (fun he => hq (by rw [he]; exact hp))]
        exact h.others q hq
      · rename_i p key v
        by_cases hq' : q = p
        · subst hq'
          rw [apply_put_same, Tables.mem_insert]
          exact .inr (h.rows q hq k hk hreplay)
        · rw [apply_put_other s hq']
          exact h.rows q hq k hk hreplay

theorem Kept.eventsOf (h : Kept s₀ s) : eventsOf s = eventsOf s₀ := by
  unfold DustBackfill.eventsOf
  rw [h.others .ledgerEvents (by decide)]

/-- The tables are those of the replay. -/
structure Rebuilt (s₀ s : Store) : Prop where
  tables : ∀ p ∈ dustParts, s p = replay (eventsOf s₀) p
  others : ∀ p, p ∉ dustParts → s p = s₀ p

theorem backfill_keeps (h : Kept s₀ s) : Keeps (Kept s₀) (fun _ => False)
    (fun counts s' => counts.rebuilt = true ∧ Rebuilt s₀ s') backfillDustGeneration s := by
  refine keeps_look h (keeps_look h ?_)
  have hrecords : (s .ledgerEvents).toList.map Prod.snd = eventsOf s₀ := h.eventsOf
  rw [hrecords]
  have hgood : ∀ round ∈ roundRobin (opStreams s (rebuildEvents (eventsOf s₀))), ∀ o ∈ round,
      Rebuilding (eventsOf s₀) o :=
    fun round hround o ho => rebuildOps_rebuilding (s := s) (List.mem_flatten.mpr ⟨round, hround, ho⟩)
  have hstart : commit s ([] : StoreBatch) = commit s ([] : List StoreBatch).flatten ∧
      ∀ o ∈ ([] : StoreBatch), Rebuilding (eventsOf s₀) o :=
    ⟨rfl, fun _ ho => absurd ho List.not_mem_nil⟩
  refine keeps_bind (keeps_foldlM (J := fun (front : List StoreBatch) (st : StoreBatch × Nat) s' =>
    commit s' st.1 = commit s front.flatten ∧ ∀ o ∈ st.1, Rebuilding (eventsOf s₀) o) h hstart ?_) ?_
  · rintro front round rest ⟨batch, pending⟩ s' hrounds hkept ⟨hcommit, hwrites⟩
    have hround : round ∈ roundRobin (opStreams s (rebuildEvents (eventsOf s₀))) := by
      rw [hrounds]
      exact List.mem_append_right _ List.mem_cons_self
    have hnext : commit s' (batch ++ round) = commit s (front ++ [round]).flatten := by
      dsimp only at hcommit
      rw [commit_append, hcommit, List.flatten_append, List.flatten_singleton, commit_append]
    have hwrites' : ∀ o ∈ batch ++ round, Rebuilding (eventsOf s₀) o := by
      intro o ho
      rcases List.mem_append.mp ho with ho | ho
      · exact hwrites o ho
      · exact hgood round hround o ho
    rw [applyRound]
    dsimp only
    split
    · refine keeps_change hkept (keeps_pure ?_ ?_)
      · exact commit_keeps (fun o ho s hs => hs.apply (hwrites' o ho)) hkept
      · exact ⟨hnext, fun _ ho => absurd ho List.not_mem_nil⟩
    · exact keeps_pure hkept ⟨hnext, hwrites'⟩
  · rintro ⟨batch, pending⟩ s' hkept ⟨hcommit, hwrites⟩
    have hdone : Kept s₀ (commit s' batch) :=
      commit_keeps (fun o ho s hs => hs.apply (hwrites o ho)) hkept
    refine keeps_change hkept (keeps_pure hdone ⟨rfl, fun p hp => ?_, hdone.others⟩)
    dsimp only at hcommit
    rw [hcommit]
    exact rebuildOps_commit hp

theorem Rebuilt.kept (h : Rebuilt s₀ s) : Kept s₀ s :=
  ⟨h.others, fun p hp k _ hreplay => by rw [h.tables p hp]; exact hreplay⟩

theorem Rebuilt.again (h : Rebuilt s₀ s) {counts : DustBackfillCounts}
    (hrun : backfillDustGeneration.run s = (.ok counts, s')) : s' = s := by
  obtain ⟨-, -, h'⟩ := (backfill_keeps h.kept).run_ok hrun
  funext p
  by_cases hp : p ∈ dustParts
  · rw [h.tables p hp, h'.tables p hp]
  · rw [h.others p hp, h'.others p hp]

end Runs

section Pipeline

variable {s s' : Store} {st st' : Staged} {records records' : List EventRecord} {q : Part}

def Dusted (view : Store) (records : List EventRecord) : Prop :=
  ∀ p ∈ dustParts, view p = replay records p

theorem Dusted.congr (h : Dusted s records) (hview : ∀ p ∈ dustParts, s' p = s p)
    (hops : records'.flatMap generationOps = records.flatMap generationOps) : Dusted s' records' := by
  intro p hp
  rw [hview p hp, h p hp, replay_eq, replay_eq, hops]

theorem stageLedgerEvent_dusted (height txId eventId : Nat) (event : LedgerEvent)
    (h : Dusted (pending s st) records) :
    Dusted (pending s (stageLedgerEvent height txId eventId st event))
      (records ++ [⟨event, txId, height⟩]) := by
  intro p hp
  have hevents : p ≠ .ledgerEvents ∧ p ≠ .eventsByContract ∧ p ≠ .walletDustEvents := by
    clear h
    revert p
    decide
  have hbefore : pending s (stageDustIndex ((stageContractIndex st event.contractAddress eventId).put
      .ledgerEvents (be 8 eventId) ⟨event, txId, height⟩) event.grouping eventId) p =
      commit (fun _ => ∅) (records.flatMap generationOps) p := by
    rw [(stageDustIndex_frame hevents.2.2 _ _).1, pending_put_other _ _ hevents.1,
      (stageContractIndex_frame hevents.2.1 _ _).1, h p hp, replay_eq]
  have hbatch := replayEvent_batch (stageDustIndex ((stageContractIndex st event.contractAddress
    eventId).put .ledgerEvents (be 8 eventId) ⟨event, txId, height⟩) event.grouping eventId)
    ⟨event, txId, height⟩
  rw [replay_eq, List.flatMap_append, List.flatMap_singleton, commit_append, stageLedgerEvent]
  rw [pending]
  rw [show (stageDustGeneration _ txId event.attributes).batch = _ from hbatch, commit_append]
  exact commit_part hbefore

theorem writeLedgerEvents_dusted {height txId : Nat}
    {actions : List (Nat × Bytes × ContractAttributes)} {new : List LedgerEvent}
    (hrun : new.foldl (writeLedgerEvent height txId actions) st = st')
    (h : Dusted (pending s st) records) :
    Dusted (pending s st')
      (records ++ new.map (fun event => ⟨correlated actions event, txId, height⟩)) := by
  refine foldl_split hrun (I := fun done a => Dusted (pending s a)
    (records ++ done.map (fun event => ⟨correlated actions event, txId, height⟩))) ?_ ?_
  · rw [List.map_nil, List.append_nil]
    exact h
  · intro done event rest a _ ha
    rw [List.map_append, List.map_singleton, ← List.append_assoc]
    exact stageLedgerEvent_dusted height txId _ _ ha

theorem newEvents_ops (height txId firstActionId : Nat) (applied : AppliedTransaction)
    (actions : List (Nat × Bytes × ContractAttributes)) :
    (newEvents height txId firstActionId applied).flatMap generationOps =
      (applied.ledgerEvents.map (fun event => (⟨correlated actions event, txId, height⟩ :
        EventRecord))).flatMap generationOps := by
  rw [newEvents, List.flatMap_map, List.flatMap_map]
  rfl

theorem writeTransaction_dusted {height : Nat} {applied : AppliedTransaction} {index : Nat}
    {log : ChainLog} (hrun : writeTransaction s height st (applied, index) = .ok st')
    (hids : st.ids = log.counters) (h : Dusted (pending s st) log.events) :
    Dusted (pending s st') (log.addTransaction height (applied, index)).events := by
  obtain ⟨st₁, st₂, ids, st₃, h₁, h₂, h₃, rfl⟩ := writeTransaction_ok.mp hrun
  have htx : st.ids.nextTxId = log.txs.length := by rw [hids]; rfl
  have hbefore : ∀ p ∈ dustParts, pending s st₂ p = pending s st p := by
    intro p hp
    have hparts : p ∉ [.utxos, .utxosUnspentByOwner] ∧ p ∉ [.walletTxIndices, .txsByHash,
        .txsByIdentifier] ∧ p ∉ [.contractActions, .contractActionsByAddr, .contractStates,
          .contracts] := by
      revert p
      decide
    rw [(writeContractActions_frame hparts.2.2 h₂).1, (utxos_frame hparts.1 h₁).1,
      stageKeyIndexes_frame hparts.2.1, pending_with_ids]
  have hevents := writeLedgerEvents_dusted h₃ (h.congr hbefore rfl)
  apply hevents.congr
  · intro p hp
    refine pending_put_other _ _ ?_ _ _
    revert p
    decide
  · rw [htx]
    simp only [ChainLog.addTransaction, List.flatMap_append]
    rw [newEvents_ops]

theorem writeTransactions_dusted {height : Nat} {transactions : List AppliedTransaction}
    {ids : Counters} {log : ChainLog}
    (hrun : transactions.zipIdx.foldlM (writeTransaction s height) (Staged.start ids) = .ok st')
    (hroom : Room ids transactions)
    (hd : ∀ applied ∈ transactions, Derived height applied) (hids : ids = log.counters)
    (htables : LogTables s log) (h : Dusted s log.events) :
    Dusted (pending s st') (log.addTransactions height transactions).events := by
  have hall := foldlM_split hrun (I := fun done a =>
    a.ids = (done.foldl (ChainLog.addTransaction height) log).counters ∧
      LogTables (pending s a) (done.foldl (ChainLog.addTransaction height) log) ∧
      Dusted (pending s a) (done.foldl (ChainLog.addTransaction height) log).events)
    ⟨hids, htables, h⟩ ?_
  · exact hall.2.2
  · rintro done entry rest a b hcut ⟨hi, ht, hdust⟩ hb
    obtain ⟨hmem, hroom'⟩ := Room.pass hroom hcut
    rw [hids, ← addTransactions_counters height, ← hi] at hroom'
    rw [List.foldl_append]
    obtain ⟨hi', ht'⟩ := writeTransaction_tables hb hroom' (hd entry.1 hmem) hi ht
    exact ⟨hi', ht', writeTransaction_dusted hb hi hdust⟩

theorem Dusted.block {ids ids' : Counters} {log : ChainLog} {d : DerivedBlock}
    {ledgerStateKey : Bytes} {window : LedgerStateWindow} (hold : Holds s ids log)
    (hroom : Room ids d.transactions)
    (hblock : writeBlock s d.block d.transactions ledgerStateKey window ids = .ok (s', ids'))
    (h : Dusted s log.events) : Dusted s' (log.addBlock d.block d.transactions).events := by
  obtain ⟨st, balances, hloop, htail, rfl, rfl⟩ := writeBlock_ok.mp hblock
  have hdust := writeTransactions_dusted hloop hroom d.derived hold.counters hold.tables h
  refine hdust.congr ?_ rfl
  intro p hp
  refine blockBatch_frame ?_ htail
  clear hdust
  revert p
  decide

/-- What a run of the pipeline leaves in the dust tables is the replay of the
events that it has stored. -/
theorem run_dusted {blocks : List DerivedBlock} {ids : Counters} (hrun : Run blocks s ids) :
    Dusted s (logOf blocks).events := by
  induction hrun with
  | start =>
      intro p hp
      rcases List.mem_pair.mp hp with rfl | rfl <;> rfl
  | step d ledgerStateKey window h hroom hblock ih =>
      rw [logOf_push]
      exact ih.block h.holds hroom hblock
  | scan h hscan ih =>
      refine ih.congr (fun p hp => hscan p ?_) rfl
      clear ih
      revert p
      decide

theorem run_events {blocks : List DerivedBlock} {ids : Counters} (hrun : Run blocks s ids) :
    eventsOf s = (logOf blocks).events := by
  rw [eventsOf, hrun.holds.tables.events.records.rows, List.map_map]
  exact List.zipIdx_map_fst 0 _

def generationOf (k : Bytes) (record : EventRecord) : Option DustGenerationRecord :=
  (generationInfoOf record.event.attributes).bind fun generationInfo =>
    if generationInfo.nightUtxoHash.val = k then some ⟨generationInfo, record.txId⟩ else none

/-- The last event of a night UTXO wins. -/
theorem replay_generation (records : List EventRecord) (k : Bytes) :
    (replay records .dustGeneration)[k]? = (records.filterMap (generationOf k)).getLast? := by
  rw [replay_eq]
  induction records using List.reverseRecOn with
  | nil => exact get_empty k
  | append_singleton records record ih =>
      rw [List.flatMap_append, List.flatMap_singleton, commit_append, List.filterMap_append]
      cases hinfo : generationInfoOf record.event.attributes with
      | none =>
          have hops : generationOps record = [] := by rw [generationOps, hinfo]
          have hnew : [record].filterMap (generationOf k) = [] := by simp [generationOf, hinfo]
          rw [hops, commit_nil, ih, hnew, List.append_nil]
      | some info =>
          have hops : generationOps record = [.put .dustGeneration info.nightUtxoHash.val
              ⟨info, record.txId⟩, .put .dustGenByOwner (info.owner ++ info.nightUtxoHash.val) ()] := by
            rw [generationOps, hinfo]
          rw [hops, commit_cons, commit_cons, commit_nil, apply_put_other _ (by decide),
            apply_put_same, get_insert, ih]
          by_cases hk : info.nightUtxoHash.val = k
          · have hnew : [record].filterMap (generationOf k) = [⟨info, record.txId⟩] := by
              simp [generationOf, hinfo, hk]
            rw [if_pos hk, hnew, List.getLast?_concat]
          · have hnew : [record].filterMap (generationOf k) = [] := by
              simp [generationOf, hinfo, hk]
            rw [if_neg hk, hnew, List.append_nil]

theorem replay_owner (records : List EventRecord) (k : Bytes) : k ∈ replay records .dustGenByOwner ↔
    ∃ record ∈ records, ∃ generationInfo,
      generationInfoOf record.event.attributes = some generationInfo ∧
        k = generationInfo.owner ++ generationInfo.nightUtxoHash.val := by
  rw [replay_eq]
  induction records using List.reverseRecOn with
  | nil => simp
  | append_singleton records record ih =>
      rw [List.flatMap_append, List.flatMap_singleton, commit_append]
      cases hinfo : generationInfoOf record.event.attributes with
      | none =>
          have hops : generationOps record = [] := by rw [generationOps, hinfo]
          rw [hops, commit_nil, ih]
          simp [hinfo]
      | some info =>
          have hops : generationOps record = [.put .dustGeneration info.nightUtxoHash.val
              ⟨info, record.txId⟩, .put .dustGenByOwner (info.owner ++ info.nightUtxoHash.val) ()] := by
            rw [generationOps, hinfo]
          rw [hops, commit_cons, commit_cons, commit_nil, apply_put_same, Tables.mem_insert,
            apply_put_other _ (by decide), ih]
          simp only [List.mem_append, List.mem_singleton, or_and_right, exists_or, exists_eq_left,
            hinfo, Option.some.injEq, exists_eq_left']
          rw [or_comm, eq_comm]

/-- Whatever the dust tables held, runs that are cut off at any commits and one
that completes leave what the pipeline makes of the stored events; no row that
belongs there is lost on the way, and a further run changes nothing. -/
theorem dust_rebuilt (s : Store) :
    (∀ t, Attempts backfillDustGeneration s t →
      (∃ counts s', backfillDustGeneration.run t = (.ok counts, s')) ∧
        ∀ p ∈ dustParts, ∀ k, k ∈ s p → k ∈ replay (eventsOf s) p → k ∈ t p) ∧
    ∀ counts s', Completes backfillDustGeneration s counts s' →
      (∀ p ∈ dustParts, s' p = replay (eventsOf s) p) ∧ (∀ p, p ∉ dustParts → s' p = s p) ∧
      (∀ k, (s' .dustGeneration)[k]? = ((eventsOf s).filterMap (generationOf k)).getLast?) ∧
      (∀ counts' s'', backfillDustGeneration.run s' = (.ok counts', s'') → s'' = s') ∧
      ∀ blocks t ids, Run blocks t ids → s .ledgerEvents = t .ledgerEvents →
        eventsOf s = (logOf blocks).events ∧ ∀ p ∈ dustParts, s' p = t p := by
  have hkeeps : ∀ t, Kept s t → Keeps (Kept s) (fun _ => False)
      (fun counts s' => counts.rebuilt = true ∧ Rebuilt s s') backfillDustGeneration t :=
    fun t ht => backfill_keeps ht
  constructor
  · intro t hattempts
    have hkept := attempts_keep hkeeps (Kept.refl s) hattempts
    refine ⟨?_, hkept.rows⟩
    cases hrun : backfillDustGeneration.run t with
    | mk result s' =>
        cases result with
        | ok counts => exact ⟨counts, s', rfl⟩
        | error e => exact ((hkeeps t hkept).run_error hrun).2.elim
  · intro counts s' hcompletes
    obtain ⟨-, -, -, -, hrebuilt⟩ := completes_keep hkeeps (Kept.refl s) hcompletes
    refine ⟨hrebuilt.tables, hrebuilt.others, ?_, fun counts' s'' => hrebuilt.again, ?_⟩
    · intro k
      rw [hrebuilt.tables .dustGeneration (by decide), replay_generation]
    · intro blocks t ids hrun hevents
      have hsame : eventsOf s = (logOf blocks).events := by
        rw [← run_events hrun, eventsOf, hevents, ← eventsOf]
      refine ⟨hsame, fun p hp => ?_⟩
      rw [hrebuilt.tables p hp, hsame, run_dusted hrun p hp]

end Pipeline

end Nightfrost.DustBackfill
