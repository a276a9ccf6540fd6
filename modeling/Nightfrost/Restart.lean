import Nightfrost.Pipeline

namespace Nightfrost.Restart

open ByteOrder Tables Partitions Domain Schema WriteBlock ExceptFold BlockStep BlockRun LedgerDb Worklist
  RootRepair IndexBlock LedgerArena Scripts Journal FinalizedBlocks BlockStream Pipeline

variable {L : Type} (libs : LedgerLibs L) (a : ArenaLibs L) (node : ChainNode)

/-- The node's chain is linked and begins with the block that the node names as its
genesis. -/
structure Trusted : Prop where
  heights : FromGenesis node.finalized
  linked : LinkedFrom zeroHash node.finalized
  genesis : ∀ block, node.finalized.head? = some block → block.hash = node.genesisHash

/-- On disk are the tables of the first blocks of the chain, and an arena that holds
the window of ledger states behind them. -/
structure Stage (k : Nat) (p : Progress L) (hashes : List ArenaHash) (w : World a) : Prop where
  bound : k ≤ node.finalized.length
  indexed : indexed libs node.genesisLedgerState (node.finalized.take k) = .ok p
  tables : w.tables = p.tables
  roots : Hashes a.arenaRootHash p.window hashes
  held : a.Held (a.openDb w.arena) hashes

def Sound (w : World a) (_ : List (Batch a)) : Prop := ∃ k p hashes, Stage libs a node k p hashes w

abbrev SafeDisk (d : Directory a) : Prop := Safe World.apply (Sound libs a node) d

structure Ready (k : Nat) (p : Progress L) (hashes : List ArenaHash) (st : Memory a) (d : Directory a) :
    Prop where
  stage : Stage libs a node k p hashes (d.view World.apply)
  db : (d.view World.apply).arena = a.db st.arena
  ledger : st.ledger = p.ledger
  timestamp : st.parentBlockTimestamp = p.parentBlockTimestamp
  window : st.window = p.window
  ids : st.ids = p.ids
  held : a.Held st.arena hashes
  backed : a.Backed st.arena p.ledger

def Stops (bound : Nat) (e : Halt) : Prop :=
  ∃ k ≤ bound, indexed libs node.genesisLedgerState (node.finalized.take k) = .error e

/-- What a process has written of a block, before it retires the oldest states. -/
structure Written (k : Nat) (p' : Progress L) (hashes : List ArenaHash) (window : LedgerStateWindow)
    (r : Memory a × Bytes) (d : Directory a) : Prop where
  bound : k + 1 ≤ node.finalized.length
  indexed : indexed libs node.genesisLedgerState (node.finalized.take (k + 1)) = .ok p'
  tables : (d.view World.apply).tables = p'.tables
  db : (d.view World.apply).arena = a.db r.1.arena
  ledger : r.1.ledger = p'.ledger
  timestamp : r.1.parentBlockTimestamp = p'.parentBlockTimestamp
  ids : r.1.ids = p'.ids
  pushed : r.1.window ++ [(r.2, libs.ledgerVersion r.1.ledger)] = window
  trimmed : p'.window = trimWindow window
  roots : Hashes a.arenaRootHash window hashes
  held : a.Held r.1.arena hashes
  held_db : a.Held (a.openDb (a.db r.1.arena)) hashes

section Blocks

variable {libs} {a} {node} {k bound : Nat} {p p' : Progress L} {hashes : List ArenaHash} {st : Memory a}
  {d : Directory a} {block : Block}

theorem take_succ (hblock : node.finalized[k]? = some block) :
    indexed libs node.genesisLedgerState (node.finalized.take (k + 1)) =
      (indexed libs node.genesisLedgerState (node.finalized.take k) >>= fun p =>
        Progress.next libs node.genesisLedgerState p block) := by
  rw [← indexed_push, List.take_add_one, hblock]
  rfl

theorem hashes_trim {arenaRootHash : Bytes → LedgerVersion → Except String ArenaHash}
    {window : LedgerStateWindow} (h : Hashes arenaRootHash window hashes) :
    ∃ hashes', Hashes arenaRootHash (trimWindow window) hashes' ∧ hashes'.Sublist hashes := by
  induction h with
  | nil => exact ⟨[], .nil, .slnil⟩
  | @cons entry hash window hashes hhash hrest ih =>
      rw [trimWindow]
      split
      · obtain ⟨hashes', hhashes', hsub⟩ := ih
        exact ⟨hashes', hhashes', hsub.cons hash⟩
      · exact ⟨hash :: hashes, .cons hhash hrest, .refl _⟩

theorem Stage.behind {w : World a} (h : Stage libs a node k p hashes w) (hl : a.Lawful libs)
    (hn : Trusted node) : Behind libs (node.finalized.take k) p :=
  indexed_behind hl (hn.heights.take k) h.indexed

theorem Stage.last {w : World a} (h : Stage libs a node k p hashes w) (hl : a.Lawful libs)
    (hn : Trusted node) (hk : 0 < k) : a.rootHash p.ledger ∈ hashes ∧ Settled libs p.ledger ∧
      ∃ key, libs.root p.ledger = .ok key ∧
        p.window.getLast? = some (key, libs.ledgerVersion p.ledger) := by
  have hne : node.finalized.take k ≠ [] := by
    have hbound := h.bound
    rw [Ne, List.take_eq_nil_iff]
    rintro (rfl | hnil)
    · exact absurd hk (lt_irrefl 0)
    · rw [hnil] at hbound
      exact absurd (lt_of_lt_of_le hk hbound) (lt_irrefl 0)
  obtain ⟨hsettled, key, hkey, hlast⟩ := (h.behind hl hn).last hne
  exact ⟨hash_mem h.roots (List.mem_of_getLast? hlast) (hl.arenaRootHash _ key hkey), hsettled, key, hkey, hlast⟩

theorem Stage.backed {w : World a} (h : Stage libs a node k p hashes w) (hl : a.Lawful libs)
    (hn : Trusted node) {s : a.backend.State} (hheld : a.Held s hashes) : a.Backed s p.ledger := by
  rcases Nat.eq_zero_or_pos k with rfl | hk
  · obtain ⟨-, hnew⟩ := (h.behind hl hn).first rfl
    intro hash hhash
    rw [(hl.created _ _ (.new hnew)).2] at hhash
    exact absurd hhash List.not_mem_nil
  · exact hl.backed s _ (hheld.complete _ (h.last hl hn hk).1)

structure Persisted (hashes : List ArenaHash) (root : ArenaHash) (arena : a.backend.State) : Prop where
  held : a.Held arena (hashes ++ [root])
  held_db : a.Held (a.openDb (a.db arena)) (hashes ++ [root])

theorem persisted (hl : a.Lawful libs) {s : a.backend.State} {ledger : L} (h : a.Held s hashes)
    (hbacked : a.Backed s ledger) : Persisted hashes (a.rootHash ledger) (a.backend.flushAllChangesToDb
      (a.backend.persist (a.alloc s ledger) (a.rootHash ledger))) := by
  have hcomplete := hl.alloc_complete s ledger hbacked
  have hpersist := (h.spares (hl.spares_alloc s ledger)).persist hl hcomplete
  obtain ⟨hheld, hheld_db⟩ := hpersist.flush hl
  exact ⟨hheld, hheld_db⟩

/-- A crash behind the persist and before the batch finds one root too many. -/
theorem safe_persist (hsafe : SafeDisk libs a node d) (h : Stage libs a node k p hashes (d.view World.apply))
    {root : ArenaHash} {arena : a.backend.State} (harena : Persisted hashes root arena) :
    SafeDisk libs a node (d.append (.arena (a.db arena))) := by
  refine hsafe.append ⟨k, p, hashes, h.bound, h.indexed, h.tables, h.roots, ?_⟩
  exact harena.held_db.sublist (List.sublist_append_left hashes [root])

theorem persistLedger_keeps {E : Halt → Prop} (hl : a.Lawful libs) (hsafe : SafeDisk libs a node d)
    (h : Stage libs a node k p hashes (d.view World.apply)) {arena : a.backend.State} {ledger : L}
    (hheld : a.Held arena hashes) (hbacked : a.Backed arena ledger)
    (herror : ∀ e, stop (context "persist ledger state" (libs.root ledger)) = .error e → E e) :
    Keeps (SafeDisk libs a node) E
      (fun r d' => libs.root ledger = .ok r.2 ∧ Persisted hashes (a.rootHash ledger) r.1 ∧
        d' = d.append (.arena (a.db r.1)))
      (persistLedger libs a arena ledger) d := by
  have harena := persisted hl hheld hbacked
  have hpersist := safe_persist hsafe h harena
  rw [persistLedger]
  refine keeps_change hsafe (keeps_ofExcept hpersist (fun key hkey => ?_) herror)
  exact keeps_pure hpersist ⟨context_ok.mp (stop_ok.mp hkey), harena, rfl⟩

theorem indexBlock_keeps (hl : a.Lawful libs) (hk : k + 1 ≤ bound) (hsafe : SafeDisk libs a node d)
    (h : Ready libs a node k p hashes st d) (hblock : node.finalized[k]? = some block) :
    Keeps (SafeDisk libs a node) (Stops libs node bound)
      (fun r d' => ∃ p' hashes' window, Written libs a node k p' hashes' window r d')
      (indexBlock libs a node st block) d := by
  have hnext : indexed libs node.genesisLedgerState (node.finalized.take (k + 1)) =
      (indexed libs node.genesisLedgerState (node.finalized.take k) >>= fun p =>
        Progress.next libs node.genesisLedgerState p block) := take_succ hblock
  rw [h.stage.indexed] at hnext
  have hbound : k < node.finalized.length := (List.getElem?_eq_some_iff.mp hblock).1
  have hstops : ∀ e, Progress.next libs node.genesisLedgerState p block = .error e → Stops libs node bound e :=
    fun e he => ⟨k + 1, hk, hnext.trans he⟩
  rw [indexBlock, h.ledger, h.timestamp]
  -- the replay, from what memory has
  refine keeps_ofExcept hsafe ?_ fun e he => hstops e (bind_error.mpr (.inl he))
  rintro ⟨transactions, ledger, timestamp⟩ hreplay
  obtain ⟨hversion, -, -⟩ := replayBlock_version hl (stop_ok.mp hreplay)
  have hbacked := replayBlock_backed hl h.backed (stop_ok.mp hreplay)
  -- the state, which is in the arena before the tables have its key
  refine keeps_bind (persistLedger_keeps hl hsafe h.stage h.held hbacked fun e he => hstops e
    (bind_error.mpr (.inr ⟨_, hreplay, bind_error.mpr (.inl he)⟩))) ?_
  rintro ⟨arena, key⟩ _ hpersist ⟨hroot, harena, rfl⟩
  have hkey : stop (context "persist ledger state" (libs.root ledger)) = .ok key :=
    stop_ok.mpr (context_ok.mpr hroot)
  dsimp only at hroot harena hpersist ⊢
  -- the batch, over tables that are those of the window
  apply keeps_look hpersist
  have htables : tables (d.append (.arena (a.db arena))) = p.tables := by
    rw [tables, view_append]
    exact h.stage.tables
  rw [htables, h.window, h.ids]
  refine keeps_ofExcept hpersist ?_ fun e he => hstops e
    (bind_error.mpr (.inr ⟨_, hreplay, bind_error.mpr (.inr ⟨key, hkey, bind_error.mpr (.inl he)⟩)⟩))
  rintro ⟨batch, ids⟩ hbatch
  have hindexed := hnext.trans (next_ok.mpr ⟨transactions, ledger, timestamp, key, batch, ids,
    stop_ok.mp hreplay, hroot, stop_ok.mp hbatch, rfl⟩)
  have hroots : Hashes a.arenaRootHash (p.window ++ [(key, libs.ledgerVersion ledger)])
      (hashes ++ [a.rootHash ledger]) :=
    List.rel_append h.stage.roots (.cons (hl.arenaRootHash ledger key hroot) .nil)
  have hview : ((d.append (.arena (a.db arena))).append (.block batch)).view World.apply =
      ⟨commit p.tables batch, a.db arena⟩ := by
    rw [view_append, view_append]
    exact congrArg (fun s => (⟨commit s batch, a.db arena⟩ : World a)) h.stage.tables
  have hwritten : SafeDisk libs a node ((d.append (.arena (a.db arena))).append (.block batch)) := by
    obtain ⟨hashes', hhashes', hsub⟩ := hashes_trim hroots
    rw [hversion] at hhashes'
    refine hpersist.append ⟨k + 1, _, hashes', hbound, hindexed, ?_, hhashes', ?_⟩
    · rw [view_append]
      exact congrArg (fun s => commit s batch) h.stage.tables
    · rw [view_append]
      exact harena.held_db.sublist hsub
  refine keeps_change hpersist (keeps_pure hwritten ?_)
  refine ⟨_, hashes ++ [a.rootHash ledger], p.window ++ [(key, libs.ledgerVersion ledger)], hbound, hindexed,
    congrArg World.tables hview, congrArg World.arena hview, rfl, rfl, rfl, rfl, ?_, hroots, harena.held,
    harena.held_db⟩
  rw [hversion]

theorem sweep_keeps (hl : a.Lawful libs) (pace : Pace a) {arena : a.backend.State}
    (hsafe : SafeDisk libs a node d) (hstage : Stage libs a node k p hashes (d.view World.apply))
    (hdb : (d.view World.apply).arena = a.db arena) (hheld : a.Held arena hashes) :
    Keeps (SafeDisk libs a node) (Stops libs node bound)
      (fun arena' d' => Stage libs a node k p hashes (d'.view World.apply) ∧
        (d'.view World.apply).arena = a.db arena' ∧ a.Held arena' hashes)
      (sweep a pace block arena) d := by
  rw [sweep]
  split
  · refine keeps_foldlM (J := fun _ arena' d' => Stage libs a node k p hashes (d'.view World.apply) ∧
      (d'.view World.apply).arena = a.db arena' ∧ a.Held arena' hashes) hsafe ⟨hstage, hdb, hheld⟩ ?_
    intro front next rest _ d' hsplit hsafe' hd'
    have hmem : next ∈ pace.gc block arena := by
      rw [hsplit]
      exact List.mem_append_right _ List.mem_cons_self
    have hdb_held : a.Held (a.openDb (a.db arena)) hashes := by
      rw [← hdb]
      exact hstage.held
    obtain ⟨hnext, hnext_db⟩ := hheld.swept hl hdb_held (pace.swept block arena next hmem)
    have hstage' : Stage libs a node k p hashes (World.apply (d'.view World.apply) (.arena (a.db next))) :=
      ⟨hstage.bound, hstage.indexed, hd'.1.tables, hstage.roots, hnext_db⟩
    refine keeps_change hsafe' (keeps_pure (hsafe'.append ⟨k, p, hashes, hstage'⟩) ?_)
    rw [view_append]
    exact ⟨hstage', rfl, hnext⟩
  · exact keeps_pure hsafe ⟨hstage, hdb, hheld⟩

/-- One block more, whatever of it a crash cuts off. -/
theorem indexNext_keeps (hl : a.Lawful libs) (hn : Trusted node) (pace : Pace a)
    (hk : k + 1 ≤ bound) (hsafe : SafeDisk libs a node d) (h : Ready libs a node k p hashes st d)
    (hblock : node.finalized[k]? = some block) :
    Keeps (SafeDisk libs a node) (Stops libs node bound)
      (fun st' d' => ∃ p' hashes', Ready libs a node (k + 1) p' hashes' st' d')
      (indexNext libs a node pace st block) d := by
  rw [indexNext]
  apply keeps_bind (indexBlock_keeps hl hk hsafe h hblock)
  rintro ⟨st', key⟩ d' hsafe' ⟨p', roots, window, hw⟩
  dsimp only
  rw [hw.pushed]
  obtain ⟨arena, hashes', hretire, hhashes', hheld, hsub, hdb⟩ := retire_held hl hw.roots hw.held
  rw [hretire]
  apply keeps_ok
  dsimp only
  have hstage : Stage libs a node (k + 1) p' hashes' (d'.view World.apply) := by
    refine ⟨hw.bound, hw.indexed, hw.tables, hw.trimmed ▸ hhashes', ?_⟩
    rw [hw.db]
    exact hw.held_db.sublist hsub
  apply keeps_bind (sweep_keeps hl pace hsafe' hstage (hw.db.trans hdb.symm) hheld)
  rintro arena' d'' hsafe'' ⟨hstage', hdb', hheld'⟩
  exact keeps_pure hsafe'' ⟨p', hashes', hstage', hdb', hw.ledger, hw.timestamp, hw.trimmed.symm, hw.ids,
    hheld', hstage'.backed hl hn hheld'⟩

end Blocks

section Start

variable {libs} {a} {node} {k : Nat} {p : Progress L} {hashes : List ArenaHash} {d : Directory a}
  {E : Halt → Prop}

theorem Stage.lastHeight {w : World a} (h : Stage libs a node k p hashes w) (hl : a.Lawful libs)
    (hn : Trusted node) : (k = 0 ∧ (node.finalized.take k).getLast? = none ∧ lastIndexedHeight w.tables = none) ∨
      ∃ block, (node.finalized.take k).getLast? = some block ∧ block.height + 1 = k ∧
        lastIndexedHeight w.tables = some block.height := by
  have hheight := (h.behind hl hn).lastHeight
  rw [h.tables, hheight]
  cases hlast : (node.finalized.take k).getLast? with
  | none =>
      refine .inl ⟨?_, rfl, rfl⟩
      rw [List.getLast?_eq_none_iff, List.take_eq_nil_iff] at hlast
      rcases hlast with hzero | hnil
      · exact hzero
      · have hbound := h.bound
        rw [hnil] at hbound
        exact Nat.le_zero.mp hbound
  | some block =>
      refine .inr ⟨block, rfl, ?_, rfl⟩
      rw [List.getLast?_eq_getElem?, List.length_take, Nat.min_eq_left h.bound] at hlast
      have hpos := (List.getElem?_eq_some_iff.mp hlast).1
      rw [List.length_take, Nat.min_eq_left h.bound] at hpos
      rw [hn.heights.take k _ block hlast]
      omega

theorem head_take {blocks : List Block} {block : Block} (h : (blocks.take k).head? = some block) :
    blocks.head? = some block := by
  cases blocks with
  | nil => rwa [List.take_nil] at h
  | cons first blocks =>
      cases k with
      | zero => cases h
      | succ k => exact h

theorem checkGenesis_ok (hn : Trusted node) {s : Store} (h : Behind libs (node.finalized.take k) p)
    (hs : s = p.tables) : checkGenesis node s = .ok () := by
  rw [checkGenesis, hs, h.genesis]
  cases hhead : (node.finalized.take k).head? with
  | none => rfl
  | some block => exact if_neg (not_not.mpr (hn.genesis block (head_take hhead)))

theorem resumePoint_ok {s : Store} (h : Behind libs (node.finalized.take k) p) (hs : s = p.tables) :
    resumePoint s = .ok ((node.finalized.take k).getLast?.map blockRef) := by
  rw [resumePoint, hs, h.lastHeight]
  cases hlast : (node.finalized.take k).getLast? with
  | none => rfl
  | some block =>
      obtain ⟨record, hrecord, hhash⟩ := h.record block hlast
      rw [Option.map_some, Option.map_some]
      dsimp only
      rw [hrecord]
      exact congrArg (fun hash => Except.ok (some (⟨hash, block.height⟩ : BlockRef))) hhash

/-- The repair finds nothing to raise, and the filter nothing to drop. -/
theorem repairRoots_keeps (hl : a.Lawful libs) (hsafe : SafeDisk libs a node d)
    (h : Stage libs a node k p hashes (d.view World.apply)) (fuel : Nat) :
    Keeps (SafeDisk libs a node) E
      (fun arena d' => Stage libs a node k p hashes (d'.view World.apply) ∧
        (d'.view World.apply).arena = a.db arena ∧ a.Held arena hashes ∧ a.arena.Flushed arena)
      (repairRoots a fuel (a.openDb (d.view World.apply).arena) p.window) d := by
  have hflushed := hl.flushed_open (d.view World.apply).arena
  obtain ⟨wanted, hwanted, hidle⟩ := repair_idle hl hflushed h.roots h.held
  obtain ⟨repair, hrepair⟩ := hidle fuel
  obtain ⟨hheld, hheld_db⟩ := h.held.flush hl
  have hafter := (hl.arena.flush _ h.held.nonneg).2
  rw [repairRoots, hwanted]
  dsimp only
  rw [hrepair]
  have hstage : Stage libs a node k p hashes (World.apply (d.view World.apply) (.arena (a.db
      (a.backend.flushAllChangesToDb (a.openDb (d.view World.apply).arena))))) :=
    ⟨h.bound, h.indexed, h.tables, h.roots, hheld_db⟩
  refine keeps_change hsafe (keeps_pure (hsafe.append ⟨k, p, hashes, hstage⟩) ?_)
  rw [view_append]
  exact ⟨hstage, rfl, hheld, hafter.2.trans hafter.1.symm⟩

theorem loadLedger_ok (hl : a.Lawful libs) (hn : Trusted node) {w : World a}
    (h : Stage libs a node k p hashes w) {arena : a.backend.State} (hheld : a.Held arena hashes) :
    ∃ arena', loadLedger libs a ((node.finalized.take k).getLast?.map blockRef) arena p.window =
        .ok (p.ledger, arena') ∧ a.arena.Same arena arena' ∧ a.db arena' = a.db arena := by
  rw [loadLedger]
  rcases Nat.eq_zero_or_pos k with rfl | hk
  · obtain ⟨hnil, hnew⟩ := (h.behind hl hn).first rfl
    refine ⟨arena, ?_, .refl arena, rfl⟩
    rw [hnil, hnew]
    rfl
  · obtain ⟨hroot, hsettled, key, hkey, hlast⟩ := h.last hl hn hk
    obtain ⟨arena', hload, hsame, hdb⟩ := hl.load arena p.ledger key hsettled hkey (hheld.complete _ hroot)
    refine ⟨arena', ?_, hsame, hdb⟩
    rw [hlast]
    dsimp only
    rw [hload]
    rfl

/-- A process comes up with what the tables say, wherever the one before was cut off. -/
theorem resume_keeps (hl : a.Lawful libs) (hn : Trusted node) (hsafe : SafeDisk libs a node d)
    (h : Stage libs a node k p hashes (d.view World.apply)) (fuel : Nat) :
    Keeps (SafeDisk libs a node) E
      (fun r d' => Ready libs a node k p hashes r.1 d' ∧
        r.2 = (node.finalized.take k).getLast?.map blockRef)
      (resume libs a node fuel) d := by
  have hbehind := h.behind hl hn
  rw [resume]
  apply keeps_look hsafe
  have htables : tables d = p.tables := h.tables
  rw [checkGenesis_ok hn hbehind htables, resumePoint_ok hbehind htables, htables, hbehind.window]
  refine keeps_ok (keeps_ok ?_)
  refine keeps_look hsafe (keeps_bind (repairRoots_keeps hl hsafe h fuel) ?_)
  rintro arena d' hsafe' ⟨hstage, hdb, hheld, hflushed⟩
  obtain ⟨arena', hload, hsame, hdb'⟩ := loadLedger_ok hl hn hstage hheld
  rw [retainPersisted_all hl hflushed hstage.roots hheld]
  dsimp only
  rw [hload]
  apply keeps_ok
  refine keeps_look hsafe' (keeps_pure hsafe' ⟨⟨hstage, hdb.trans hdb'.symm, rfl, hbehind.timestamp, rfl, ?_,
    hheld.same hsame, hstage.backed hl hn (hheld.same hsame)⟩, rfl⟩)
  have htables' : tables d' = p.tables := hstage.tables
  rw [htables']
  exact hbehind.counters

theorem resume_ok (hl : a.Lawful libs) (hn : Trusted node) (hsafe : SafeDisk libs a node d)
    (h : Stage libs a node k p hashes (d.view World.apply)) (fuel : Nat) :
    ∃ st resumeFrom d', (resume libs a node fuel).run d = (.ok (st, resumeFrom), d') ∧
      Ready libs a node k p hashes st d' := by
  have hkeeps := (resume_keeps (E := fun _ => False) hl hn hsafe h fuel).run
  rcases hrun : (resume libs a node fuel).run d with ⟨e | ⟨st, resumeFrom⟩, d'⟩
  · rw [hrun] at hkeeps
    exact hkeeps.2.elim
  · rw [hrun] at hkeeps
    exact ⟨st, resumeFrom, d', rfl, hkeeps.2.1⟩

theorem linked_drop {parent : H256} {blocks : List Block} (h : LinkedFrom parent blocks) (k : Nat) :
    LinkedFrom (((blocks.take k).getLast?.map Block.hash).getD parent) (blocks.drop k) := by
  induction k generalizing parent blocks with
  | zero => exact h
  | succ k ih =>
      cases blocks with
      | nil => trivial
      | cons block blocks =>
          have hrest := ih h.2
          rw [List.take_succ_cons, List.getLast?_cons, List.drop_succ_cons]
          cases hlast : (blocks.take k).getLast? with
          | none =>
              rw [hlast] at hrest
              exact hrest
          | some last =>
              rw [hlast] at hrest
              exact hrest

theorem acceptLinked_all {highest : Option BlockRef} {blocks : List Block}
    (h : LinkedFrom (expectedParent highest) blocks) : (acceptLinked highest blocks).1 = blocks := by
  induction blocks generalizing highest with
  | nil => rfl
  | cons block blocks ih =>
      have hparent : ¬ block.parentHash ≠ (highest.map BlockRef.hash).getD (.filled 32 0) := not_not.mpr h.1
      have hlinked : LinkedFrom (expectedParent (some (blockRef block))) blocks := h.2
      have hrest := ih hlinked
      rw [acceptLinked, if_neg hparent]
      exact congrArg (block :: ·) hrest

theorem linked_take {parent : H256} {blocks : List Block} (h : LinkedFrom parent blocks) (k : Nat) :
    LinkedFrom parent (blocks.take k) := by
  induction k generalizing parent blocks with
  | zero => trivial
  | succ k ih =>
      cases blocks with
      | nil => trivial
      | cons block blocks => exact ⟨h.1, ih h.2⟩

theorem receive_eq (hl : a.Lawful libs) (hn : Trusted node) {w : World a}
    (h : Stage libs a node k p hashes w) (received : Nat) :
    receive node received ((node.finalized.take k).getLast?.map blockRef) =
      (node.finalized.drop k).take received := by
  have hstart : startHeight ((node.finalized.take k).getLast?.map blockRef) = k := by
    rcases h.lastHeight hl hn with ⟨hzero, hlast, -⟩ | ⟨block, hlast, hheight, -⟩
    · rw [hlast, hzero]
      rfl
    · rw [hlast]
      exact hheight
  rw [receive]
  rw [hstart, acceptLinked_all]
  refine linked_take ?_ received
  have hlinked := linked_drop hn.linked k
  rw [expectedParent]
  cases hlast : (node.finalized.take k).getLast? with
  | none =>
      rw [hlast] at hlinked
      exact hlinked
  | some block =>
      rw [hlast] at hlinked
      exact hlinked

theorem run_keeps (hl : a.Lawful libs) (hn : Trusted node) (hsafe : SafeDisk libs a node d)
    (h : Stage libs a node k p hashes (d.view World.apply)) (fuel : Nat) (pace : Pace a) :
    Keeps (SafeDisk libs a node) (Stops libs node (k + pace.received))
      (fun st d' => ∃ p' hashes', Ready libs a node
        (k + ((node.finalized.drop k).take pace.received).length) p' hashes' st d')
      (run libs a node fuel pace) d := by
  rw [run]
  apply keeps_bind (resume_keeps hl hn hsafe h fuel)
  rintro ⟨st, resumeFrom⟩ d' hsafe' ⟨hready, rfl⟩
  dsimp only
  rw [receive_eq hl hn h]
  refine keeps_foldlM (J := fun front st d' => ∃ p' hashes',
    Ready libs a node (k + front.length) p' hashes' st d') hsafe' ⟨p, hashes, hready⟩ ?_
  rintro front block rest st d'' hsplit hsafe'' ⟨p', hashes', hready'⟩
  have hlength := congrArg List.length hsplit
  rw [List.length_take, List.length_append, List.length_cons] at hlength
  have hblock : node.finalized[k + front.length]? = some block := by
    have hget := congrArg (·[front.length]?) hsplit
    have hlt : front.length < pace.received := by omega
    simp only [List.getElem?_take_of_lt hlt, List.getElem?_drop, List.getElem?_append_right (le_refl _),
      Nat.sub_self, List.getElem?_cons_zero] at hget
    exact hget
  have hstep := indexNext_keeps hl hn pace (by omega : k + front.length + 1 ≤ k + pace.received) hsafe''
    hready' hblock
  rw [List.length_append, List.length_singleton, ← Nat.add_assoc]
  exact hstep

end Start

section Sessions

def empty : World a := ⟨fresh, ⟨∅, ∅⟩⟩

/-- What is on disk when a process was started any number of times on what was left
of the one before, by a crash anywhere in it or by its end. -/
abbrev Reaches (d : Directory a) : Prop :=
  Sessions World.apply (fun start : Nat × Pace a => run libs a node start.1 start.2) (empty a) d

variable {libs} {a} {node} {d : Directory a}

theorem stage_empty (hl : a.Lawful libs) : ∃ p, Stage libs a node 0 p [] (empty a) := by
  obtain ⟨ledger, hnew⟩ := hl.new_ok .oldest
  refine ⟨_, Nat.zero_le _, indexed_nil.mpr ⟨ledger, hnew, rfl⟩, rfl, .nil, ?_, ?_⟩
  · intro hash
    have hnonneg := hl.arena.stored_nonneg (a.openDb (empty a).arena) hash
    rw [hl.flushed_open] at hnonneg
    simpa using hnonneg
  · intro hash hmem
    exact absurd hmem List.not_mem_nil

theorem sound_empty (hl : a.Lawful libs) : Sound libs a node (empty a) [] := by
  have hempty : ∃ p, Stage libs a node 0 p [] (empty a) := stage_empty hl
  obtain ⟨p, hstage⟩ := hempty
  exact ⟨0, p, [], hstage⟩

theorem Reaches.stage (hl : a.Lawful libs) (hn : Trusted node) (h : Reaches libs a node d) :
    SafeDisk libs a node d ∧ ∃ k p hashes, Stage libs a node k p hashes (d.view World.apply) := by
  have hsound := h.sound (P := Sound libs a node) (E := fun _ => True) (R := fun _ _ _ => True)
    (sound_empty hl) ?_
  · obtain ⟨hempty, hstage⟩ := hsound
    refine ⟨(safe_of_empty hempty).mpr hstage, ?_⟩
    rw [view_of_empty hempty]
    exact hstage
  · intro start d hempty hstage
    have hsafe : SafeDisk libs a node d := (safe_of_empty hempty).mpr hstage
    obtain ⟨k, p, hashes, hstage⟩ := hstage
    have hview : d.view World.apply = d.durable := view_of_empty hempty
    rw [← hview] at hstage
    exact (run_keeps hl hn hsafe hstage start.1 start.2).mono (fun _ hi => hi) (fun _ _ => trivial)
      fun _ _ _ => trivial

variable (libs) (a) (node) in
/-- Between two blocks: every key of the window is counted as often as it stands in
it, the window is no longer than the retention, and its last key is that of the last
block, whose state is all there. -/
structure Retained (st : Memory a) (d : Directory a) : Prop where
  counted : ∃ hashes, Hashes a.arenaRootHash st.window hashes ∧
    ∀ hash, (hashes.count hash : Int) ≤ a.arena.rootCount st.arena hash
  bounded : st.window.length ≤ ledgerStateRetention
  none_yet : lastIndexedHeight (tables d) = none → st.window = []
  newest : ∀ height, lastIndexedHeight (tables d) = some height → ∃ p key,
    indexed libs node.genesisLedgerState (node.finalized.take (height + 1)) = .ok p ∧
      libs.root p.ledger = .ok key ∧ st.window.getLast? = some (key, libs.ledgerVersion p.ledger) ∧
      Complete (a.arena.children st.arena) (a.rootHash p.ledger) ∧
      Complete (a.arena.children (a.openDb (arenaDb d))) (a.rootHash p.ledger)

theorem Ready.retained {k : Nat} {p : Progress L} {hashes : List ArenaHash} {st : Memory a}
    (hl : a.Lawful libs) (hn : Trusted node) (h : Ready libs a node k p hashes st d) :
    Retained libs a node st d := by
  have hbehind := h.stage.behind hl hn
  refine ⟨⟨hashes, ?_, h.held.count⟩, ?_, ?_, ?_⟩
  · rw [h.window]
    exact h.stage.roots
  · rw [h.window]
    exact hbehind.retention
  · intro hnone
    rcases h.stage.lastHeight hl hn with ⟨rfl, -, -⟩ | ⟨block, -, -, hsome⟩
    · rw [h.window]
      exact (hbehind.first rfl).1
    · exact absurd (hnone.symm.trans hsome) (by simp)
  · intro height hheight
    rcases h.stage.lastHeight hl hn with ⟨-, -, hnone⟩ | ⟨block, -, hk, hsome⟩
    · exact absurd (hheight.symm.trans hnone) (by simp)
    · obtain rfl := Option.some.inj (hheight.symm.trans hsome)
      obtain ⟨hroot, -, key, hkey, hlast⟩ := h.stage.last hl hn (by omega)
      rw [hk]
      refine ⟨p, key, h.stage.indexed, hkey, ?_, h.held.complete _ hroot, h.stage.held.complete _ hroot⟩
      rw [h.window]
      exact hlast

theorem indexed_error {genesisLedgerState : Bytes} {blocks : List Block} {e : Halt}
    (h : indexed libs genesisLedgerState blocks = .error e) : ∃ message, e = .stopped message := by
  rcases bind_error.mp h with hnew | ⟨ledger, -, hloop⟩
  · exact stop_error hnew
  · clear h
    generalize (⟨fresh, ledger, 0, [], Counters.load fresh⟩ : Progress L) = p at hloop
    induction blocks generalizing p with
    | nil => cases hloop
    | cons block blocks ih =>
        rw [List.foldlM_cons] at hloop
        rcases bind_error.mp hloop with hnext | ⟨p', -, hrest⟩
        · exact next_error hnext
        · exact ih p' hrest

/-- Wherever processes were cut off, the next one comes up with the whole window, and
none of them unpersists a root that is not counted. -/
theorem window_roots_held (hl : a.Lawful libs) (hn : Trusted node) (h : Reaches libs a node d) :
    (∀ fuel, ∃ st resumeFrom d', (resume libs a node fuel).run d = (.ok (st, resumeFrom), d') ∧
      st.window = ledgerStateWindow (tables d) ∧ Retained libs a node st d') ∧
    ∀ fuel pace,
      (∀ st d', (run libs a node fuel pace).run d = (.ok st, d') → Retained libs a node st d') ∧
      ∀ e d', (run libs a node fuel pace).run d = (.error e, d') → ∀ message, e ≠ .panicked message := by
  obtain ⟨hsafe, k, p, hashes, hstage⟩ := h.stage hl hn
  refine ⟨fun fuel => ?_, fun fuel pace => ⟨?_, ?_⟩⟩
  · obtain ⟨st, resumeFrom, d', hrun, hready⟩ := resume_ok hl hn hsafe hstage fuel
    refine ⟨st, resumeFrom, d', hrun, ?_, hready.retained hl hn⟩
    have htables : tables d = p.tables := hstage.tables
    rw [hready.window, htables, (hstage.behind hl hn).window]
  · intro st d' hrun
    obtain ⟨-, p', hashes', hready⟩ := (run_keeps hl hn hsafe hstage fuel pace).run_ok hrun
    exact hready.retained hl hn
  · rintro e d' hrun message rfl
    obtain ⟨-, k', -, herror⟩ := (run_keeps hl hn hsafe hstage fuel pace).run_error hrun
    obtain ⟨message', hmessage⟩ := indexed_error herror
    cases hmessage

/-- Two runs that end in the same way: with equal tables and the same in memory, but
for the arena, or on the same block. -/
def SameEnd (x y : Except Halt (Memory a) × Directory a) : Prop :=
  (∃ st st', x.1 = .ok st ∧ y.1 = .ok st' ∧ tables x.2 = tables y.2 ∧ st.ledger = st'.ledger ∧
    st.parentBlockTimestamp = st'.parentBlockTimestamp ∧ st.window = st'.window ∧ st.ids = st'.ids) ∨
    ∃ e, x.1 = .error e ∧ y.1 = .error e

theorem indexed_stuck {genesisLedgerState : Bytes} {blocks : List Block} {e : Halt}
    (h : indexed libs genesisLedgerState blocks = .error e) (more : List Block) :
    indexed libs genesisLedgerState (blocks ++ more) = .error e := by
  rcases bind_error.mp h with hnew | ⟨ledger, hnew, hloop⟩
  · exact bind_error.mpr (.inl hnew)
  · refine bind_error.mpr (.inr ⟨ledger, hnew, ?_⟩)
    rw [List.foldlM_append]
    exact bind_error.mpr (.inl hloop)

theorem stops_indexed {bound : Nat} {e : Halt} (h : Stops libs node bound e) :
    indexed libs node.genesisLedgerState (node.finalized.take bound) = .error e := by
  obtain ⟨k, hk, herror⟩ := h
  obtain ⟨more, hmore⟩ := List.take_prefix_take_left (l := node.finalized) hk
  rw [← hmore]
  exact indexed_stuck herror more

theorem take_received (k received : Nat) : node.finalized.take (k + ((node.finalized.drop k).take received).length) =
    node.finalized.take (k + received) := by
  rw [List.take_eq_take_iff, List.length_take, List.length_drop]
  omega

theorem run_ends (hl : a.Lawful libs) (hn : Trusted node) {k : Nat} {p : Progress L}
    {hashes : List ArenaHash} (hsafe : SafeDisk libs a node d)
    (h : Stage libs a node k p hashes (d.view World.apply)) (fuel : Nat) (pace : Pace a) :
    match indexed libs node.genesisLedgerState (node.finalized.take (k + pace.received)) with
    | .ok p' => ∃ st d', (run libs a node fuel pace).run d = (.ok st, d') ∧ tables d' = p'.tables ∧
        st.ledger = p'.ledger ∧ st.parentBlockTimestamp = p'.parentBlockTimestamp ∧
        st.window = p'.window ∧ st.ids = p'.ids
    | .error e => ((run libs a node fuel pace).run d).1 = .error e := by
  have hkeeps := (run_keeps hl hn hsafe h fuel pace).run
  rcases hrun : (run libs a node fuel pace).run d with ⟨e | st, d'⟩
  · rw [hrun] at hkeeps
    rw [stops_indexed hkeeps.2]
  · rw [hrun] at hkeeps
    obtain ⟨-, p', hashes', hready⟩ := hkeeps
    have hindexed := hready.stage.indexed
    rw [take_received] at hindexed
    rw [hindexed]
    exact ⟨st, d', rfl, hready.stage.tables, hready.ledger, hready.timestamp, hready.window, hready.ids⟩

/-- Whatever was cut off and started again, the tables are those of a run that was
not, over a number of blocks, and a process that goes on ends as that run does. -/
theorem restarts_transparent (hl : a.Lawful libs) (hn : Trusted node) (h : Reaches libs a node d) :
    ∃ n ≤ node.finalized.length,
      (∀ fuel (pace : Pace a), pace.received = n → ∃ st d₀,
        (run libs a node fuel pace).run (started (empty a)) = (.ok st, d₀) ∧ tables d = tables d₀) ∧
      ∀ fuel fuel₀ (pace pace₀ : Pace a), pace₀.received = n + pace.received →
        SameEnd ((run libs a node fuel pace).run d)
          ((run libs a node fuel₀ pace₀).run (started (empty a))) := by
  obtain ⟨hsafe, k, p, hashes, hstage⟩ := h.stage hl hn
  have hempty : ∃ p₀, Stage libs a node 0 p₀ [] (empty a) := stage_empty hl
  obtain ⟨p₀, hstage₀⟩ := hempty
  have hview : (started (empty a) : Directory a).view World.apply = empty a := rfl
  rw [← hview] at hstage₀
  have hsafe₀ : SafeDisk libs a node (started (empty a)) := (safe_of_empty rfl).mpr (sound_empty hl)
  refine ⟨k, hstage.bound, ?_, ?_⟩
  · intro fuel pace hreceived
    have hends := run_ends hl hn hsafe₀ hstage₀ fuel pace
    rw [Nat.zero_add, hreceived, hstage.indexed] at hends
    obtain ⟨st, d₀, hrun, htables, -⟩ := hends
    exact ⟨st, d₀, hrun, hstage.tables.trans htables.symm⟩
  · intro fuel fuel₀ pace pace₀ hreceived
    have hends := run_ends hl hn hsafe hstage fuel pace
    have hends₀ := run_ends hl hn hsafe₀ hstage₀ fuel₀ pace₀
    rw [Nat.zero_add, hreceived] at hends₀
    -- both runs know of the same blocks
    cases hindexed : indexed libs node.genesisLedgerState (node.finalized.take (k + pace.received)) with
    | error e =>
        rw [hindexed] at hends hends₀
        exact .inr ⟨e, hends, hends₀⟩
    | ok p' =>
        rw [hindexed] at hends hends₀
        obtain ⟨st, d', hrun, htables, hledger, htime, hwindow, hids⟩ := hends
        obtain ⟨st₀, d₀, hrun₀, htables₀, hledger₀, htime₀, hwindow₀, hids₀⟩ := hends₀
        rw [hrun, hrun₀]
        exact .inl ⟨st, st₀, rfl, rfl, htables.trans htables₀.symm, hledger.trans hledger₀.symm,
          htime.trans htime₀.symm, hwindow.trans hwindow₀.symm, hids.trans hids₀.symm⟩

end Sessions

section Samples

def countingLedger : LedgerLibs (LedgerVersion × UInt8) where
  new version := .ok (version, 0)
  fromGenesis _ version := .ok (version, 0)
  ledgerVersion ledger := ledger.1
  root ledger := .ok [ledger.2]
  zswapFirstFree _ := 0
  zswapMerkleTreeRoot _ := ⟨.v8, []⟩
  applyRegularTransaction ledger _ _ _ _ _ := .ok (⟨.success, [], [], [], 0⟩, ledger)
  applySystemTransaction ledger _ _ := .ok (⟨[], []⟩, ledger)
  finalizeApplyTransactions ledger _ := .ok (ledger.1, ledger.2 + 1)
  sha256 := sampleSha256
  contractBalances _ _ := none

structure Process where
  memory : RootRepair.Memory
  nodes : Std.ExtTreeMap ArenaHash (List ArenaHash)

def leaves : StorageBackend where
  State := Process
  Object := List ArenaHash
  refs _ := []
  getRoots s := memory.getRoots s.memory
  get s hash := (s.memory.nodes[hash]?, s)
  persist s hash := { s with memory := addCount s.memory hash 1 }
  unpersist s hash := { s with memory := addCount s.memory hash (-1) }
  flushAllChangesToDb s := ⟨memory.flushAllChangesToDb s.memory, s.memory.nodes⟩

def leavesArena : Arena leaves where
  node s hash := s.memory.nodes[hash]?
  rootCount s hash := memoryArena.rootCount s.memory hash
  stored s hash := memoryArena.stored s.memory hash

def leavesLibs : ArenaLibs (LedgerVersion × UInt8) where
  backend := leaves
  arena := leavesArena
  openDb db := ⟨⟨db.nodes, db.roots.map (fun _ => Int.ofNat), db.roots⟩, db.nodes⟩
  db s := ⟨s.nodes, s.memory.flushed⟩
  alloc s ledger :=
    { s with memory := { s.memory with nodes := s.memory.nodes.insertIfNew (.filled 32 ledger.2) [] } }
  rootHash ledger := .filled 32 ledger.2
  refs _ := []
  load s key version :=
    match key with
    | [n] =>
        if (s.memory.nodes[ByteArr.filled 32 n]?).isSome then .ok ((version, n), s)
        else .error (.other "no such state")
    | _ => .error (.other "no state key")
  arenaRootHash key _ :=
    match key with
    | [n] => .ok (.filled 32 n)
    | _ => .error "no state key"

theorem leavesArena_lawful : leavesArena.Lawful where
  get_node _ _ := rfl
  get_same s _ := .refl s
  persist s hash := memoryArena_lawful.persist s.memory hash
  unpersist s hash := memoryArena_lawful.unpersist s.memory hash
  flush s hs := memoryArena_lawful.flush s.memory hs
  stored_nonneg s hash := memoryArena_lawful.stored_nonneg s.memory hash
  roots_nodup s := memoryArena_lawful.roots_nodup s.memory
  mem_roots s hs hash count := memoryArena_lawful.mem_roots s.memory hs hash count

theorem leaves_complete {s : Process} {hash : ArenaHash} :
    Complete (leavesArena.children s) hash ↔ (s.memory.nodes[hash]?).isSome := by
  have hleaf : ∀ other, Reach (leavesArena.children s) hash other → other = hash := by
    intro other hreach
    cases hreach with
    | root => rfl
    | child h hchildren hmem =>
        obtain ⟨object, -, rfl⟩ := Option.map_eq_some_iff.mp hchildren
        exact absurd hmem List.not_mem_nil
  constructor
  · intro h
    obtain ⟨refs, hrefs⟩ := Option.isSome_iff_exists.mp (h hash .root)
    obtain ⟨object, hobject, -⟩ := Option.map_eq_some_iff.mp hrefs
    exact Option.isSome_iff_exists.mpr ⟨object, hobject⟩
  · intro h other hreach
    obtain ⟨object, hobject⟩ := Option.isSome_iff_exists.mp h
    rw [hleaf other hreach]
    exact Option.isSome_iff_exists.mpr ⟨[], Option.map_eq_some_iff.mpr ⟨object, hobject, rfl⟩⟩

theorem leavesLibs_lawful : leavesLibs.Lawful countingLedger where
  arena := leavesArena_lawful
  stored_db _ _ := rfl
  db_open _ := rfl
  node_open _ _ := rfl
  flushed_open db := by
    funext hash
    change ((db.roots.getD hash 0 : Nat) : Int) = (db.roots.map (fun _ => Int.ofNat)).getD hash 0
    rw [Std.ExtTreeMap.getD_eq_getD_getElem?, Std.ExtTreeMap.getD_eq_getD_getElem?, Std.ExtTreeMap.getElem?_map]
    cases db.roots[hash]? with
    | none => rfl
    | some count => rfl
  db_unpersist _ _ := rfl
  db_flush _ _ _ := rfl
  spares_alloc s ledger := by
    refine ⟨rfl, fun root _ hash _ object hobject => ?_⟩
    change (s.memory.nodes.insertIfNew (.filled 32 ledger.2) [])[hash]? = some object
    rw [Std.ExtTreeMap.getElem?_insertIfNew, if_neg]
    · exact hobject
    · rintro ⟨he, hnew⟩
      rw [Std.LawfulEqOrd.eq_of_compare he] at hnew
      exact hnew (Std.ExtTreeMap.mem_iff_isSome_getElem?.mpr (Option.isSome_iff_exists.mpr ⟨object, hobject⟩))
  alloc_complete s ledger _ := by
    apply leaves_complete.mpr
    rw [← Std.ExtTreeMap.mem_iff_isSome_getElem?]
    exact Std.ExtTreeMap.mem_insertIfNew_self
  load s ledger key _ hkey hcomplete := by
    obtain rfl := Except.ok.inj hkey
    exact ⟨s, if_pos (leaves_complete.mp hcomplete), .refl s, rfl⟩
  arenaRootHash ledger key hkey := by
    obtain rfl := Except.ok.inj hkey
    rfl
  new_ok version := ⟨_, rfl⟩
  created version ledger h := by
    cases h with
    | new h =>
        obtain rfl := Except.ok.inj h
        exact ⟨rfl, rfl⟩
    | genesis raw h =>
        obtain rfl := Except.ok.inj h
        exact ⟨rfl, rfl⟩
  applies ledger ledger' h := by
    refine ⟨?_, fun _ _ hash hmem => absurd hmem List.not_mem_nil⟩
    cases h with
    | regular raw parentHash timestamp parentTimestamp tblock h =>
        exact congrArg (fun r => r.2.1) (Except.ok.inj h).symm
    | system raw timestamp h => exact congrArg (fun r => r.2.1) (Except.ok.inj h).symm
    | finalize timestamp h =>
        obtain rfl := Except.ok.inj h
        rfl
  backed s ledger _ hash hmem := absurd hmem List.not_mem_nil

def sampleNode : ChainNode where
  genesisHash := .filled 32 1
  genesisLedgerState := []
  finalized :=
    [{ emptyBlock 0 zero_lt_u64 with hash := .filled 32 1, ledgerStateRoot := some [0] },
      { emptyBlock 1 one_lt_u64 with hash := .filled 32 2, parentHash := .filled 32 1 }]

theorem sampleNode_trusted : Trusted sampleNode where
  heights i block h := by
    cases i with
    | zero =>
        obtain rfl := Option.some.inj h
        rfl
    | succ i =>
        cases i with
        | zero =>
            obtain rfl := Option.some.inj h
            rfl
        | succ i => cases h
  linked := ⟨rfl, rfl, trivial⟩
  genesis block h := by
    obtain rfl := Option.some.inj h
    rfl

def steady (received : Nat) : Pace leavesLibs where
  received
  distance _ := none
  gc _ _ := []
  swept _ _ _ h := absurd h List.not_mem_nil

def sampleRun (received : Nat) (d : Directory leavesLibs) :
    Except Halt (Pipeline.Memory (L := LedgerVersion × UInt8) leavesLibs) × Directory leavesLibs :=
  (run countingLedger leavesLibs sampleNode 0 (steady received)).run d

/-- The first batches of a run over both blocks: the state of the second block is
in the arena, and the tables do not have the block. -/
def cutDisk : Directory leavesLibs := (sampleRun 2 (started (empty leavesLibs))).2.crash World.apply 4

theorem reaches_cut : Reaches countingLedger leavesLibs sampleNode cutDisk :=
  .again .start (0, steady 2) (leaves_run _ _) 4

theorem restarts_transparent_cut : lastIndexedHeight (tables cutDisk) = some 0 ∧
    ∃ n ≤ 2, SameEnd (sampleRun 1 cutDisk) (sampleRun (n + 1) (started (empty leavesLibs))) := by
  obtain ⟨n, hn, -, hends⟩ := restarts_transparent leavesLibs_lawful sampleNode_trusted reaches_cut
  exact ⟨by decide +kernel, n, hn, hends 0 0 (steady 1) (steady (n + 1)) rfl⟩

theorem window_roots_held_cut : ledgerStateWindow (tables cutDisk) = [([0], .v8)] ∧
    ∃ st resumeFrom d', (resume countingLedger leavesLibs sampleNode 0).run cutDisk =
      (.ok (st, resumeFrom), d') ∧ st.window = [([0], .v8)] ∧
      Retained countingLedger leavesLibs sampleNode st d' := by
  have hwindow : ledgerStateWindow (tables cutDisk) = [([0], .v8)] := by decide +kernel
  obtain ⟨hresume, -⟩ := window_roots_held leavesLibs_lawful sampleNode_trusted reaches_cut
  obtain ⟨st, resumeFrom, d', hrun, hst, hretained⟩ := hresume 0
  exact ⟨hwindow, st, resumeFrom, d', hrun, hst.trans hwindow, hretained⟩

end Samples

end Nightfrost.Restart
