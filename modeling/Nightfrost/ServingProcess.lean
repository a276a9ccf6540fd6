import Nightfrost.Restart

namespace Nightfrost.ServingProcess

open ByteOrder Tables Partitions Domain Schema WriteBlock ExceptFold BlockStep BlockRun LedgerDb Worklist
  RootRepair IndexBlock LedgerArena Scripts Journal FinalizedBlocks BlockStream Pipeline Restart Relation

variable {L : Type} (libs : LedgerLibs L) (a : ArenaLibs L) (node : ChainNode)

/-- Where the pipeline is in a block: the state that the replay has come to is counted in
the arena before the tables have its key. -/
inductive Phase (L : Type)
  | between
  | persisted (block : Block) (transactions : List AppliedTransaction) (ledger : L) (timestamp : Nat)
      (key : Bytes)

/-- What the process shares between the pipeline and the requests that it serves, with
the number of the blocks that are in the tables. -/
structure Live where
  memory : Memory a
  tables : Store
  indexed : Nat
  phase : Phase L

/-- The effects of the pipeline on what the requests see, one at a time, with whatever
else goes on in the arena: the nodes of a replay, and the loads of requests. -/
inductive Step : Live a → Live a → Prop
  | persist {st : Memory a} {tables : Store} {k : Nat} {block : Block}
      {transactions : List AppliedTransaction} {ledger : L} {timestamp : Nat} {key : Bytes}
      (hblock : node.finalized[k]? = some block) (hshort : st.window.length ≤ ledgerStateRetention)
      (hreplay : replayBlock libs block (if block.height = 0 then some node.genesisLedgerState else none)
        st.ledger st.parentBlockTimestamp = .ok (transactions, ledger, timestamp))
      (hkey : libs.root ledger = .ok key) :
      Step ⟨st, tables, k, .between⟩
        ⟨{ st with arena := a.backend.persist (a.alloc st.arena ledger) (a.rootHash ledger) }, tables, k,
          .persisted block transactions ledger timestamp key⟩
  | flush {st : Memory a} {tables : Store} {k : Nat} {phase : Phase L} :
      Step ⟨st, tables, k, phase⟩
        ⟨{ st with arena := a.backend.flushAllChangesToDb st.arena }, tables, k, phase⟩
  | commit {st : Memory a} {tables : Store} {k : Nat} {block : Block}
      {transactions : List AppliedTransaction} {ledger : L} {timestamp : Nat} {key : Bytes}
      {batch : StoreBatch} {ids : Counters}
      (hbatch : writeBlockBatch tables block transactions key st.window st.ids = .ok (batch, ids)) :
      Step ⟨st, tables, k, .persisted block transactions ledger timestamp key⟩
        ⟨⟨st.arena, ledger, timestamp, st.window ++ [(key, libs.ledgerVersion ledger)], ids⟩,
          commit tables batch, k + 1, .between⟩
  | retire {st : Memory a} {tables : Store} {k : Nat} {entry : Bytes × LedgerVersion}
      {window : LedgerStateWindow} {hash : ArenaHash} {arena : a.backend.State}
      (hwindow : st.window = entry :: window) (hlong : ledgerStateRetention < st.window.length)
      (hhash : a.arenaRootHash entry.1 entry.2 = .ok hash)
      (hunpersist : unpersist a st.arena hash = .ok arena) :
      Step ⟨st, tables, k, .between⟩ ⟨{ st with arena, window }, tables, k, .between⟩
  | sweep {st : Memory a} {tables : Store} {k : Nat} {arena : a.backend.State}
      (hswept : a.Swept st.arena arena) :
      Step ⟨st, tables, k, .between⟩ ⟨{ st with arena }, tables, k, .between⟩
  | other {st : Memory a} {tables : Store} {k : Nat} {phase : Phase L} {arena : a.backend.State}
      (hspares : a.Spares st.arena arena) :
      Step ⟨st, tables, k, phase⟩ ⟨{ st with arena }, tables, k, phase⟩

abbrev Steps : Live a → Live a → Prop := ReflTransGen (Step libs a node)

def Phase.roots : Phase L → List ArenaHash
  | .between => []
  | .persisted _ _ ledger _ _ => [a.rootHash ledger]

def Phase.Derived (p : Progress L) (k : Nat) (window : LedgerStateWindow) : Phase L → Prop
  | .between => True
  | .persisted block transactions ledger timestamp key =>
      node.finalized[k]? = some block ∧ window.length ≤ ledgerStateRetention ∧
      replayBlock libs block (if block.height = 0 then some node.genesisLedgerState else none) p.ledger
        p.parentBlockTimestamp = .ok (transactions, ledger, timestamp) ∧ libs.root ledger = .ok key

/-- At any moment the tables are those of the first blocks of the chain, and the arena
holds the states of the window, and of the block that the pipeline is in. -/
structure Serving (p : Progress L) (hashes : List ArenaHash) (live : Live a) : Prop where
  bound : live.indexed ≤ node.finalized.length
  indexed : indexed libs node.genesisLedgerState (node.finalized.take live.indexed) = .ok p
  tables : live.tables = p.tables
  ledger : live.memory.ledger = p.ledger
  timestamp : live.memory.parentBlockTimestamp = p.parentBlockTimestamp
  trimmed : trimWindow live.memory.window = p.window
  ids : live.memory.ids = p.ids
  roots : Hashes a.arenaRootHash live.memory.window hashes
  held : a.Held live.memory.arena (hashes ++ live.phase.roots a)
  derived : live.phase.Derived libs node p live.indexed live.memory.window

section Steps

variable {libs} {a} {node} {p : Progress L} {hashes : List ArenaHash} {live live' : Live a}

theorem trimWindow_short {window : LedgerStateWindow} (h : window.length ≤ ledgerStateRetention) :
    trimWindow window = window := by
  cases window with
  | nil => rfl
  | cons entry window => exact if_neg (not_lt.mpr h)

theorem trimWindow_long {entry : Bytes × LedgerVersion} {window : LedgerStateWindow}
    (h : ledgerStateRetention < (entry :: window).length) :
    trimWindow (entry :: window) = trimWindow window := if_pos h

theorem Serving.stage (h : Serving libs a node p hashes live) (hl : a.Lawful libs) :
    ∃ hashes', Stage libs a node live.indexed p hashes'
        ⟨p.tables, a.db (a.backend.flushAllChangesToDb live.memory.arena)⟩ ∧ hashes'.Sublist hashes := by
  obtain ⟨hashes', hhashes', hsub⟩ := hashes_trim h.roots
  rw [h.trimmed] at hhashes'
  have hheld := (h.held.flush hl).2
  exact ⟨hashes', ⟨h.bound, h.indexed, rfl, hhashes',
    hheld.sublist (hsub.trans (List.sublist_append_left hashes _))⟩, hsub⟩

theorem Serving.backed (h : Serving libs a node p hashes live) (hl : a.Lawful libs) (hn : Trusted node) :
    a.Backed live.memory.arena p.ledger := by
  obtain ⟨hashes', hstage, hsub⟩ := h.stage hl
  exact hstage.backed hl hn (h.held.sublist (hsub.trans (List.sublist_append_left hashes _)))

/-- No step of the pipeline or of a request loses a state of the window. -/
theorem Step.serving (hstep : Step libs a node live live') (hl : a.Lawful libs) (hn : Trusted node)
    (h : Serving libs a node p hashes live) : ∃ p' hashes', Serving libs a node p' hashes' live' := by
  cases hstep with
  | @persist st tables k block transactions ledger timestamp key hblock hshort hreplay hkey =>
      have hledger : st.ledger = p.ledger := h.ledger
      have htimestamp : st.parentBlockTimestamp = p.parentBlockTimestamp := h.timestamp
      rw [hledger, htimestamp] at hreplay
      have hbacked := replayBlock_backed hl (h.backed hl hn) hreplay
      have hheld : a.Held st.arena (hashes ++ []) := h.held
      rw [List.append_nil] at hheld
      refine ⟨p, hashes, h.bound, h.indexed, h.tables, h.ledger, h.timestamp, h.trimmed, h.ids, h.roots, ?_,
        hblock, hshort, hreplay, hkey⟩
      exact (hheld.spares (hl.spares_alloc st.arena ledger)).persist hl (hl.alloc_complete _ _ hbacked)
  | flush =>
      exact ⟨p, hashes, h.bound, h.indexed, h.tables, h.ledger, h.timestamp, h.trimmed, h.ids, h.roots,
        (h.held.flush hl).1, h.derived⟩
  | @commit st tables k block transactions ledger timestamp key batch ids hbatch =>
      obtain ⟨hblock, hshort, hreplay, hkey⟩ := h.derived
      dsimp only at hblock hshort
      have htables : tables = p.tables := h.tables
      have hids : st.ids = p.ids := h.ids
      have hwindow : st.window = p.window := (trimWindow_short hshort).symm.trans h.trimmed
      have hversion := (replayBlock_version hl hreplay).1
      have hroots : Hashes a.arenaRootHash st.window hashes := h.roots
      rw [htables, hwindow, hids] at hbatch
      have hnext := next_ok.mpr ⟨transactions, ledger, timestamp, key, batch, ids, hreplay, hkey, hbatch, rfl⟩
      have hindexed := (take_succ hblock).trans (bind_ok.mpr ⟨p, h.indexed, hnext⟩)
      refine ⟨_, hashes ++ [a.rootHash ledger], (List.getElem?_eq_some_iff.mp hblock).1, hindexed, ?_, rfl, rfl,
        ?_, rfl, ?_, ?_, trivial⟩
      · rw [htables]
      · dsimp only
        rw [hwindow, hversion]
      · exact List.rel_append hroots (.cons (hl.arenaRootHash ledger key hkey) .nil)
      · dsimp only [Phase.roots]
        rw [List.append_nil]
        exact h.held
  | @retire st tables k entry window hash arena hwindow hlong hhash hunpersist =>
      have hroots : Hashes a.arenaRootHash st.window hashes := h.roots
      have hheld : a.Held st.arena (hashes ++ []) := h.held
      have htrimmed : trimWindow st.window = p.window := h.trimmed
      rw [hwindow] at hroots hlong htrimmed
      cases hroots with
      | @cons _ first _ rest hfirst hrest =>
          rw [List.append_nil] at hheld
          obtain rfl : hash = first := Except.ok.inj (hhash.symm.trans hfirst)
          obtain ⟨hok, hafter⟩ := hheld.unpersist hl
          rw [hok] at hunpersist
          obtain rfl := Except.ok.inj hunpersist
          refine ⟨p, rest, h.bound, h.indexed, h.tables, h.ledger, h.timestamp, ?_, h.ids, hrest, ?_, trivial⟩
          · exact (trimWindow_long hlong).symm.trans htrimmed
          · dsimp only [Phase.roots]
            rwa [List.append_nil]
  | sweep hswept =>
      exact ⟨p, hashes, h.bound, h.indexed, h.tables, h.ledger, h.timestamp, h.trimmed, h.ids, h.roots,
        h.held.spares hswept.spares, trivial⟩
  | other hspares =>
      exact ⟨p, hashes, h.bound, h.indexed, h.tables, h.ledger, h.timestamp, h.trimmed, h.ids, h.roots,
        h.held.spares hspares, h.derived⟩

theorem Steps.serving (hsteps : Steps libs a node live live') (hl : a.Lawful libs) (hn : Trusted node)
    (h : Serving libs a node p hashes live) : ∃ p' hashes', Serving libs a node p' hashes' live' := by
  induction hsteps with
  | refl => exact ⟨p, hashes, h⟩
  | tail _ hstep ih =>
      obtain ⟨p', hashes', h'⟩ := ih
      exact hstep.serving hl hn h'

theorem Steps.indexed_le (hsteps : Steps libs a node live live') : live.indexed ≤ live'.indexed := by
  induction hsteps with
  | refl => exact Nat.le_refl _
  | tail _ hstep ih =>
      apply ih.trans
      cases hstep with
      | commit => exact Nat.le_succ _
      | _ => exact Nat.le_refl _

end Steps

section Pipeline

variable {libs} {a} {node} {k : Nat} {p : Progress L} {hashes : List ArenaHash} {st st' : Memory a}
  {d d' : Directory a} {block : Block}

def between (st : Memory a) (tables : Store) (k : Nat) : Live a := ⟨st, tables, k, .between⟩

theorem ready_serving (h : Ready libs a node k p hashes st d) (hl : a.Lawful libs)
    (hn : Trusted node) : Serving libs a node p hashes (between st (Pipeline.tables d) k) where
  bound := h.stage.bound
  indexed := h.stage.indexed
  tables := h.stage.tables
  ledger := h.ledger
  timestamp := h.timestamp
  trimmed := by
    have hwindow : st.window = p.window := h.window
    change trimWindow st.window = p.window
    rw [hwindow]
    exact trimWindow_short (h.stage.behind hl hn).retention
  ids := h.ids
  roots := by
    have hwindow : st.window = p.window := h.window
    change Hashes a.arenaRootHash st.window hashes
    rw [hwindow]
    exact h.stage.roots
  held := by
    change a.Held st.arena (hashes ++ [])
    rw [List.append_nil]
    exact h.held
  derived := trivial

theorem run_bind_done {S ε α β : Type} {x : Script S ε β} {f : β → Script S ε α} {s s' : S} {v : α}
    (h : (x >>= f).run s = (.ok v, s')) : ∃ b t, x.run s = (.ok b, t) ∧ (f b).run t = (.ok v, s') := by
  rw [Scripts.run_bind] at h
  rcases hx : x.run s with ⟨e | b, t⟩
  · rw [hx] at h
    cases h
  · rw [hx] at h
    exact ⟨b, t, rfl, h⟩

theorem retire_steps {arena : a.backend.State} {window window' : LedgerStateWindow} {tables : Store}
    (hwindow : st.window = window) (h : retire a st.arena window = .ok (arena, window')) :
    Steps libs a node (between st tables k) (between { st with arena, window := window' } tables k) := by
  induction window generalizing st with
  | nil =>
      obtain ⟨rfl, rfl⟩ := Prod.mk.inj (Except.ok.inj h)
      rw [← hwindow]
  | cons entry window ih =>
      rw [retire] at h
      split at h
      case isTrue hlong =>
          obtain ⟨hash, hhash, h⟩ := bind_ok.mp h
          obtain ⟨next, hnext, h⟩ := bind_ok.mp h
          have hroot : a.arenaRootHash entry.1 entry.2 = .ok hash := by
            cases harena : a.arenaRootHash entry.1 entry.2 with
            | ok hash' =>
                rw [harena] at hhash
                exact congrArg Except.ok (Except.ok.inj hhash)
            | error e =>
                rw [harena] at hhash
                cases hhash
          have hstep : Step libs a node (between st tables k)
              (between { st with arena := next, window := window } tables k) :=
            .retire hwindow (by rw [hwindow]; exact hlong) hroot hnext
          refine .head hstep ?_
          exact ih rfl h
      case isFalse =>
          obtain ⟨rfl, rfl⟩ := Prod.mk.inj (Except.ok.inj h)
          rw [← hwindow]

theorem passes_last {arena arena' : a.backend.State} {passes : List a.backend.State}
    (h : ((passes.foldlM (fun _ next => do
      commitBatch (.arena (a.db next))
      pure next) arena : Task a a.backend.State)).run d = (.ok arena', d')) :
    (arena' = arena ∨ arena' ∈ passes) ∧ Pipeline.tables d' = Pipeline.tables d := by
  induction passes generalizing arena d with
  | nil =>
      obtain ⟨harena, rfl⟩ := Prod.mk.inj h
      exact ⟨.inl (Except.ok.inj harena).symm, rfl⟩
  | cons next passes ih =>
      rw [List.foldlM_cons] at h
      obtain ⟨last, d₁, hnext, hrest⟩ := run_bind_done h
      obtain ⟨hlast, rfl⟩ := Prod.mk.inj hnext
      obtain rfl := Except.ok.inj hlast
      obtain ⟨harena, htables⟩ := ih hrest
      refine ⟨.inr ?_, ?_⟩
      · rcases harena with rfl | hmem
        · exact List.mem_cons_self
        · exact List.mem_cons_of_mem _ hmem
      · rw [htables, Pipeline.tables, view_append]
        rfl

variable (libs) in
theorem sweep_steps {pace : Pace a} {arena arena' : a.backend.State} (st : Memory a) (tables : Store) (k : Nat)
    (h : (sweep a pace block arena).run d = (.ok arena', d')) :
    Steps libs a node (between { st with arena } tables k) (between { st with arena := arena' } tables k) ∧
      Pipeline.tables d' = Pipeline.tables d := by
  rw [sweep] at h
  split at h
  case isTrue =>
      obtain ⟨harena, htables⟩ := passes_last h
      refine ⟨?_, htables⟩
      rcases harena with rfl | hmem
      · exact .refl
      · exact .single (.sweep (pace.swept block arena arena' hmem))
  case isFalse =>
      obtain ⟨harena, rfl⟩ := Prod.mk.inj h
      obtain rfl := Except.ok.inj harena
      exact ⟨.refl, rfl⟩

theorem ofExcept_done {S ε α β : Type} {x : Except ε β} {f : β → Script S ε α} {s s' : S} {v : α}
    (h : (Scripts.ofExcept x >>= f).run s = (.ok v, s')) : ∃ b, x = .ok b ∧ (f b).run s = (.ok v, s') := by
  obtain ⟨b, t, hx, hrest⟩ := run_bind_done h
  rw [Scripts.run_ofExcept] at hx
  obtain ⟨hb, rfl⟩ := Prod.mk.inj hx
  exact ⟨b, hb, hrest⟩

theorem persistLedger_done {arena arena' : a.backend.State} {ledger : L} {key : Bytes}
    (h : (persistLedger libs a arena ledger).run d = (.ok (arena', key), d')) :
    arena' = a.backend.flushAllChangesToDb (a.backend.persist (a.alloc arena ledger) (a.rootHash ledger)) ∧
      libs.root ledger = .ok key ∧ Pipeline.tables d' = Pipeline.tables d := by
  obtain ⟨_, d₁, hwrite, h⟩ := run_bind_done h
  obtain ⟨-, rfl⟩ := Prod.mk.inj hwrite
  obtain ⟨key', hkey, h⟩ := ofExcept_done h
  obtain ⟨hpair, rfl⟩ := Prod.mk.inj h
  obtain ⟨rfl, rfl⟩ := Prod.mk.inj (Except.ok.inj hpair)
  refine ⟨rfl, context_ok.mp (stop_ok.mp hkey), ?_⟩
  rw [Pipeline.tables, view_append]
  rfl

theorem indexBlock_steps {key : Bytes} (hblock : node.finalized[k]? = some block)
    (hshort : st.window.length ≤ ledgerStateRetention)
    (h : (indexBlock libs a node st block).run d = (.ok (st', key), d')) :
    st'.window = st.window ∧ Steps libs a node (between st (Pipeline.tables d) k)
      (between { st' with window := st.window ++ [(key, libs.ledgerVersion st'.ledger)] }
        (Pipeline.tables d') (k + 1)) := by
  obtain ⟨⟨transactions, ledger, timestamp⟩, hreplay, h⟩ := ofExcept_done h
  obtain ⟨⟨arena, key'⟩, d₁, hpersist, h⟩ := run_bind_done h
  obtain ⟨harena, hkey, htables⟩ := persistLedger_done hpersist
  obtain ⟨s, d₂, hlook, h⟩ := run_bind_done h
  obtain ⟨hs, rfl⟩ := Prod.mk.inj hlook
  obtain rfl := Except.ok.inj hs
  obtain ⟨⟨batch, ids⟩, hbatch, h⟩ := ofExcept_done h
  obtain ⟨_, d₃, hwrite, h⟩ := run_bind_done h
  obtain ⟨-, rfl⟩ := Prod.mk.inj hwrite
  obtain ⟨hpair, rfl⟩ := Prod.mk.inj h
  obtain ⟨rfl, rfl⟩ := Prod.mk.inj (Except.ok.inj hpair)
  refine ⟨rfl, ?_⟩
  have hbatch' := stop_ok.mp hbatch
  rw [htables] at hbatch'
  have hcommit : Pipeline.tables (d₁.append (.block batch)) = commit (Pipeline.tables d) batch := by
    rw [← htables, Pipeline.tables, view_append]
    rfl
  subst harena
  rw [hcommit]
  have hfirst : Step libs a node (between st (Pipeline.tables d) k) _ :=
    .persist hblock hshort (stop_ok.mp hreplay) hkey
  exact ((ReflTransGen.single hfirst).tail .flush).tail (.commit hbatch')

theorem indexNext_steps {pace : Pace a} (hblock : node.finalized[k]? = some block)
    (hshort : st.window.length ≤ ledgerStateRetention)
    (h : (indexNext libs a node pace st block).run d = (.ok st', d')) :
    Steps libs a node (between st (Pipeline.tables d) k) (between st' (Pipeline.tables d') (k + 1)) := by
  obtain ⟨⟨st₁, key⟩, d₁, hindex, h⟩ := run_bind_done h
  dsimp only at h
  obtain ⟨⟨arena₂, window⟩, hretire, h⟩ := ofExcept_done h
  dsimp only at h
  obtain ⟨arena₃, d₃, hsweep, h⟩ := run_bind_done h
  obtain ⟨hst, rfl⟩ := Prod.mk.inj h
  obtain rfl := Except.ok.inj hst
  obtain ⟨hwindow, hsteps⟩ := indexBlock_steps hblock hshort hindex
  rw [hwindow] at hretire
  refine hsteps.trans ((retire_steps rfl hretire).trans ?_)
  obtain ⟨hswept, htables⟩ := sweep_steps libs { st₁ with window } (Pipeline.tables d₁) (k + 1) hsweep
  rw [htables]
  exact hswept

end Pipeline

end Nightfrost.ServingProcess
