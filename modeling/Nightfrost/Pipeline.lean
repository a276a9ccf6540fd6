import Nightfrost.LedgerArena
import Nightfrost.Journal
import Nightfrost.BlockStream

namespace Nightfrost.Pipeline

open ByteOrder Tables Partitions Domain Schema WriteBlock ExceptFold BlockStep BlockRun LedgerDb Worklist
  RootRepair IndexBlock LedgerArena Scripts Journal FinalizedBlocks BlockStream

variable {L : Type} (libs : LedgerLibs L) (a : ArenaLibs L)

def caughtUpMaxDistance : Nat := 10

def catchUpGcInterval : Nat := 16

section Disk

structure World where
  tables : Store
  arena : ArenaDb a.backend.Object

inductive Batch
  | block (batch : StoreBatch)
  | arena (db : ArenaDb a.backend.Object)

variable {a} in
def World.apply (w : World a) : Batch a → World a
  | .block batch => { w with tables := commit w.tables batch }
  | .arena db => { w with arena := db }

abbrev Directory := Disk (World a) (Batch a)

abbrev Task (α : Type) := Script (Directory a) Halt α

variable {a} in
def tables (d : Directory a) : Store := (d.view World.apply).tables

variable {a} in
def arenaDb (d : Directory a) : ArenaDb a.backend.Object := (d.view World.apply).arena

variable {a} in
def commitBatch (batch : Batch a) : Task a Unit := change (·.append batch)

end Disk

structure ChainNode where
  genesisHash : H256
  genesisLedgerState : Bytes
  finalized : List Block

/-- What differs between two runs over one chain: how many blocks the node has
finalized before the process ends, how far ahead it is of each, and how far each
sweep gets in its time. -/
structure Pace where
  received : Nat
  distance : Block → Option Nat
  gc : Block → a.backend.State → List a.backend.State
  swept : ∀ block s s', s' ∈ gc block s → a.Swept s s'

structure Memory where
  arena : a.backend.State
  ledger : L
  parentBlockTimestamp : Nat
  window : LedgerStateWindow
  ids : Counters

section Loop

variable (node : ChainNode) (pace : Pace a)

def persistLedger (arena : a.backend.State) (ledger : L) : Task a (a.backend.State × Bytes) := do
  let arena := a.backend.flushAllChangesToDb
    (a.backend.persist (a.alloc arena ledger) (a.rootHash ledger))
  commitBatch (.arena (a.db arena))
  let key ← Scripts.ofExcept (stop (context "persist ledger state" (libs.root ledger)))
  pure (arena, key)

/-- The arena is persisted before the batch with the entities. -/
def indexBlock (st : Memory a) (block : Block) : Task a (Memory a × Bytes) := do
  let genesisLedgerState := if block.height = 0 then some node.genesisLedgerState else none
  let (transactions, ledger, parentBlockTimestamp) ← Scripts.ofExcept (stop
    (replayBlock libs block genesisLedgerState st.ledger st.parentBlockTimestamp))
  let (arena, key) ← persistLedger libs a st.arena ledger
  let s ← look tables
  let (batch, ids) ← Scripts.ofExcept (stop
    (writeBlockBatch s block transactions key st.window st.ids))
  commitBatch (.block batch)
  pure ({ st with arena, ledger, parentBlockTimestamp, ids }, key)

/-- The sweep, which runs at every block near the tip and now and then before it. -/
def sweep (block : Block) (arena : a.backend.State) : Task a a.backend.State :=
  if (pace.distance block).any (· ≤ caughtUpMaxDistance) || block.height % catchUpGcInterval = 0 then
    (pace.gc block arena).foldlM (fun _ next => do
      commitBatch (.arena (a.db next))
      pure next) arena
  else pure arena

def indexNext (st : Memory a) (block : Block) : Task a (Memory a) := do
  let (st, key) ← indexBlock libs a node st block
  let (arena, window) ← Scripts.ofExcept
    (retire a st.arena (st.window ++ [(key, libs.ledgerVersion st.ledger)]))
  let arena ← sweep a pace block arena
  pure { st with arena, window }

end Loop

section Start

variable (node : ChainNode)

def checkGenesis (s : Store) : Except Halt Unit :=
  match genesisHash s with
  | some stored =>
      if stored ≠ node.genesisHash then
        .error (.stopped ("data directory belongs to a different chain: stored genesis " ++
          hexEncode stored.val ++ ", node genesis " ++ hexEncode node.genesisHash.val))
      else .ok ()
  | none => .ok ()

def resumePoint (s : Store) : Except Halt (Option BlockRef) :=
  match lastIndexedHeight s with
  | some height =>
      match Schema.block s height with
      | some record => .ok (some ⟨record.hash, height⟩)
      | none => .error (.stopped "last indexed block record missing")
  | none => .ok none

/-- The blocks behind the resume point that the node hands out before the process
ends. -/
def receive (received : Nat) (resumeFrom : Option BlockRef) : List Block :=
  (acceptLinked resumeFrom ((node.finalized.drop (startHeight resumeFrom)).take received)).1

def repairRoots (fuel : Nat) (arena : a.backend.State) (window : LedgerStateWindow) :
    Task a a.backend.State := do
  match windowRootCounts a.arenaRootHash window with
  | .error _ => .fail (.stopped "repair ledger state root counts")
  | .ok wanted =>
      match raiseRootCounts a.backend fuel arena wanted with
      -- the fuel is a bound of this model: it is never what stops a process
      | none => .fail (.stopped "no fuel")
      | some (_, arena) => do
          commitBatch (.arena (a.db arena))
          pure arena

def loadLedger (resumeFrom : Option BlockRef) (arena : a.backend.State) (window : LedgerStateWindow) :
    Except Halt (L × a.backend.State) :=
  match window.getLast? with
  | some (key, version) =>
      stop (context "load ledger state from retention window" (a.load arena key version))
  | none =>
      if resumeFrom.isSome then
        .error (.stopped "blocks are indexed but no loadable ledger state root remains")
      else do
        let ledger ← stop (context "create ledger state" (libs.new .oldest))
        .ok (ledger, arena)

def resume (fuel : Nat) : Task a (Memory a × Option BlockRef) := do
  let s ← look tables
  Scripts.ofExcept (checkGenesis node s)
  let resumeFrom ← Scripts.ofExcept (resumePoint s)
  let db ← look arenaDb
  let arena ← repairRoots a fuel (a.openDb db) (ledgerStateWindow s)
  let window := retainPersisted a arena (ledgerStateWindow s)
  let (ledger, arena) ← Scripts.ofExcept (loadLedger libs a resumeFrom arena window)
  let s' ← look tables
  pure (⟨arena, ledger, (tipTimestamp s).getD 0, window, Counters.load s'⟩, resumeFrom)

def run (fuel : Nat) (pace : Pace a) : Task a (Memory a) := do
  let (st, resumeFrom) ← resume libs a node fuel
  (receive node pace.received resumeFrom).foldlM (indexNext libs a node pace) st

end Start

section Model

structure Progress (L : Type) where
  tables : Store
  ledger : L
  parentBlockTimestamp : Nat
  window : LedgerStateWindow
  ids : Counters

def Progress.next (genesisLedgerState : Bytes) (p : Progress L) (block : Block) :
    Except Halt (Progress L) := do
  let (transactions, ledger, parentBlockTimestamp) ← stop (replayBlock libs block
    (if block.height = 0 then some genesisLedgerState else none) p.ledger p.parentBlockTimestamp)
  let key ← stop (context "persist ledger state" (libs.root ledger))
  let (batch, ids) ← stop (writeBlockBatch p.tables block transactions key p.window p.ids)
  .ok ⟨commit p.tables batch, ledger, parentBlockTimestamp,
    trimWindow (p.window ++ [(key, block.protocolVersion.ledgerVersion)]), ids⟩

/-- What the indexer is for: the tables of a chain, as one function of its blocks. -/
def indexed (genesisLedgerState : Bytes) (blocks : List Block) : Except Halt (Progress L) := do
  let ledger ← stop (context "create ledger state" (libs.new .oldest))
  blocks.foldlM (Progress.next libs genesisLedgerState) ⟨fresh, ledger, 0, [], Counters.load fresh⟩

end Model

section Replay

variable {libs} {a} {block : Block} {ledger ledger' : L}

theorem stop_ok {α : Type} {x : Except String α} {b : α} : stop x = .ok b ↔ x = .ok b := by
  cases x with
  | ok b' =>
      constructor <;> intro h
      · exact congrArg _ (Except.ok.inj h)
      · exact congrArg _ (Except.ok.inj h)
  | error e => constructor <;> intro h <;> cases h

theorem stop_error {α : Type} {x : Except String α} {e : Halt} (h : stop x = .error e) :
    ∃ message, e = .stopped message := by
  cases x with
  | ok b => cases h
  | error message => exact ⟨message, (Except.error.inj h).symm⟩

theorem context_ok {α : Type} {message : String} {x : Except LedgerError α} {b : α} :
    context message x = .ok b ↔ x = .ok b := by
  cases x with
  | ok b' =>
      constructor <;> intro h
      · exact congrArg _ (Except.ok.inj h)
      · exact congrArg _ (Except.ok.inj h)
  | error e => constructor <;> intro h <;> cases h

theorem applyRegular_applies {tx : RegularTransaction} {parentBlockTimestamp : Nat} {bumpTblock : Bool}
    {outcome : ApplyRegularTransactionOutcome}
    (h : applyRegular libs ledger tx block parentBlockTimestamp bumpTblock = .ok (outcome, ledger')) :
    Applies libs ledger ledger' := by
  rw [applyRegular] at h
  split at h
  · split at h
    · rename_i houtcome
      cases h
      exact .regular _ _ _ _ _ houtcome
    · exact .regular _ _ _ _ _ (context_ok.mp h)
    · cases h
  · exact .regular _ _ _ _ _ (context_ok.mp h)

theorem applyTransaction_applies {transaction : Transaction} {parentBlockTimestamp : Nat} {bumpTblock : Bool}
    {applied : AppliedTransaction}
    (h : applyTransaction libs ledger transaction block parentBlockTimestamp bumpTblock =
      .ok (applied, ledger')) : Applies libs ledger ledger' := by
  cases transaction with
  | regular tx =>
      obtain ⟨⟨outcome, next⟩, hregular, happlied⟩ := bind_ok.mp h
      obtain rfl := congrArg Prod.snd (Except.ok.inj happlied)
      exact applyRegular_applies hregular
  | system tx =>
      obtain ⟨⟨outcome, next⟩, hsystem, happlied⟩ := bind_ok.mp h
      obtain rfl := congrArg Prod.snd (Except.ok.inj happlied)
      exact .system _ _ (context_ok.mp hsystem)

variable {I : L → Prop}

theorem startStates_keeps {genesisLedgerState : Option Bytes} {states : L × Option L}
    (hcreated : ∀ ledger, Created libs block.protocolVersion.ledgerVersion ledger → I ledger)
    (hledger : block.height = 0 ∨
      (libs.ledgerVersion ledger = block.protocolVersion.ledgerVersion → I ledger))
    (h : startStates libs block genesisLedgerState ledger = .ok states) :
    I states.1 ∧ ∀ genesis, states.2 = some genesis → I genesis ∧ Settled libs genesis := by
  rw [startStates] at h
  by_cases hzero : block.height = 0
  · rw [if_pos hzero] at h
    obtain ⟨new, hnew, h⟩ := bind_ok.mp h
    unfold genesisStates at h
    cases genesisLedgerState with
    | none => cases h
    | some raw =>
        obtain ⟨genesis, hgenesis, h⟩ := bind_ok.mp h
        have hkept := hcreated genesis (.genesis raw (context_ok.mp hgenesis))
        obtain ⟨root, -, h⟩ := bind_ok.mp h
        split at h
        · cases h
        · split at h
          · obtain rfl := Except.ok.inj h
            refine ⟨hcreated new (.new (context_ok.mp hnew)), fun other hother => ?_⟩
            obtain rfl := Option.some.inj hother
            exact ⟨hkept, .inr ⟨raw, _, context_ok.mp hgenesis⟩⟩
          · obtain rfl := Except.ok.inj h
            exact ⟨hkept, fun other hother => by cases hother⟩
  · rw [if_neg hzero] at h
    obtain ⟨same, htranslate, h⟩ := bind_ok.mp h
    obtain rfl := Except.ok.inj h
    rw [IndexBlock.translate] at htranslate
    split at htranslate
    · rename_i hversion
      obtain rfl := Except.ok.inj htranslate
      exact ⟨hledger.resolve_left hzero hversion, fun other hother => by cases hother⟩
    · cases htranslate

/-- What the creation of ledger states gives and every call keeps holds of the state
that a block leaves. -/
theorem replayBlock_keeps {genesisLedgerState : Option Bytes}
    {parentBlockTimestamp parentBlockTimestamp' : Nat} {transactions : List AppliedTransaction}
    (hcreated : ∀ ledger, Created libs block.protocolVersion.ledgerVersion ledger → I ledger)
    (happlies : ∀ ledger ledger', Applies libs ledger ledger' → I ledger → I ledger')
    (hledger : block.height = 0 ∨
      (libs.ledgerVersion ledger = block.protocolVersion.ledgerVersion → I ledger))
    (h : replayBlock libs block genesisLedgerState ledger parentBlockTimestamp =
      .ok (transactions, ledger', parentBlockTimestamp')) :
    I ledger' ∧ Settled libs ledger' ∧ parentBlockTimestamp' = block.timestamp := by
  obtain ⟨states, hstates, hrest⟩ := bind_ok.mp h
  obtain ⟨replay, hloop, hrest⟩ := bind_ok.mp hrest
  obtain ⟨next, hfinalize, hrest⟩ := bind_ok.mp hrest
  obtain ⟨-, -, hrest⟩ := bind_ok.mp hrest
  obtain ⟨hstart, hgenesis⟩ := startStates_keeps hcreated hledger hstates
  have happlied : I replay.ledgerState := by
    refine foldlM_induct hloop (I := fun _ r => I r.ledgerState) hstart ?_
    intro done transaction r r' _ hr hstep
    obtain ⟨entry, happly, hstep⟩ := bind_ok.mp hstep
    obtain rfl := Except.ok.inj hstep
    exact happlies _ _ (applyTransaction_applies happly) hr
  have hnext := happlies _ _ (.finalize _ (context_ok.mp hfinalize)) happlied
  have hresult := Except.ok.inj hrest
  obtain rfl := congrArg (fun r => r.2.1) hresult
  obtain rfl := congrArg (fun r => r.2.2) hresult
  cases hstate : states.2 with
  | none => exact ⟨hnext, .inl ⟨_, _, context_ok.mp hfinalize⟩, rfl⟩
  | some genesis =>
      obtain ⟨hkept, hsettled⟩ := hgenesis genesis hstate
      exact ⟨hkept, hsettled, rfl⟩

theorem replayBlock_version (hl : a.Lawful libs) {genesisLedgerState : Option Bytes}
    {parentBlockTimestamp parentBlockTimestamp' : Nat} {transactions : List AppliedTransaction}
    (h : replayBlock libs block genesisLedgerState ledger parentBlockTimestamp =
      .ok (transactions, ledger', parentBlockTimestamp')) :
    libs.ledgerVersion ledger' = block.protocolVersion.ledgerVersion ∧ Settled libs ledger' ∧
      parentBlockTimestamp' = block.timestamp :=
  replayBlock_keeps (fun ledger hcreated => (hl.created _ ledger hcreated).1)
    (fun ledger ledger' happlies hversion => (hl.applies ledger ledger' happlies).1.trans hversion)
    (.inr id) h

theorem replayBlock_backed (hl : a.Lawful libs) {s : a.backend.State} {genesisLedgerState : Option Bytes}
    {parentBlockTimestamp parentBlockTimestamp' : Nat} {transactions : List AppliedTransaction}
    (hledger : a.Backed s ledger)
    (h : replayBlock libs block genesisLedgerState ledger parentBlockTimestamp =
      .ok (transactions, ledger', parentBlockTimestamp')) : a.Backed s ledger' := by
  refine (replayBlock_keeps ?_ ?_ (.inr fun _ => hledger) h).1
  · intro ledger hcreated hash hhash
    rw [(hl.created _ ledger hcreated).2] at hhash
    exact absurd hhash List.not_mem_nil
  · intro ledger ledger' happlies hbacked
    exact (hl.applies ledger ledger' happlies).2 s hbacked

end Replay

section Behind

variable {libs} {a} {block : Block} {genesisLedgerState : Bytes} {p p' : Progress L} {blocks : List Block}

theorem next_ok : Progress.next libs genesisLedgerState p block = .ok p' ↔
    ∃ transactions ledger timestamp key batch ids,
      replayBlock libs block (if block.height = 0 then some genesisLedgerState else none) p.ledger
        p.parentBlockTimestamp = .ok (transactions, ledger, timestamp) ∧
      libs.root ledger = .ok key ∧
      writeBlockBatch p.tables block transactions key p.window p.ids = .ok (batch, ids) ∧
      p' = ⟨commit p.tables batch, ledger, timestamp,
        trimWindow (p.window ++ [(key, block.protocolVersion.ledgerVersion)]), ids⟩ := by
  simp only [Progress.next, bind_ok, stop_ok, context_ok, Except.ok.injEq, Prod.exists, eq_comm (b := p')]
  constructor
  · rintro ⟨transactions, ledger, timestamp, hreplay, key, hkey, batch, ids, hbatch, hp⟩
    exact ⟨transactions, ledger, timestamp, key, batch, ids, hreplay, hkey, hbatch, hp⟩
  · rintro ⟨transactions, ledger, timestamp, key, batch, ids, hreplay, hkey, hbatch, hp⟩
    exact ⟨transactions, ledger, timestamp, hreplay, key, hkey, batch, ids, hbatch, hp⟩

theorem next_error {e : Halt} (h : Progress.next libs genesisLedgerState p block = .error e) :
    ∃ message, e = .stopped message := by
  rcases bind_error.mp h with hreplay | ⟨replayed, -, h⟩
  · exact stop_error hreplay
  · rcases bind_error.mp h with hkey | ⟨key, -, h⟩
    · exact stop_error hkey
    · rcases bind_error.mp h with hbatch | ⟨batch, -, h⟩
      · exact stop_error hbatch
      · cases h

theorem indexed_nil : indexed libs genesisLedgerState [] = .ok p ↔
    ∃ ledger, libs.new .oldest = .ok ledger ∧ p = ⟨fresh, ledger, 0, [], Counters.load fresh⟩ := by
  simp only [indexed, List.foldlM_nil, bind_ok, stop_ok, context_ok]
  refine exists_congr fun ledger => and_congr_right fun _ => ?_
  exact ⟨fun h => (Except.ok.inj h).symm, fun h => congrArg _ h.symm⟩

theorem indexed_push : indexed libs genesisLedgerState (blocks ++ [block]) =
    (indexed libs genesisLedgerState blocks >>= fun p => Progress.next libs genesisLedgerState p block) := by
  simp only [indexed, List.foldlM_append, List.foldlM_cons, List.foldlM_nil, bind_assoc, bind_pure]

theorem writeBlock_genesis {s : Store} {transactions : List AppliedTransaction} {key : Bytes}
    {window : LedgerStateWindow} {ids ids' : Counters} {batch : StoreBatch}
    (h : writeBlockBatch s block transactions key window ids = .ok (batch, ids')) :
    genesisHash (commit s batch) = if block.height = 0 then some block.hash else genesisHash s := by
  obtain ⟨st, balances, hloop, htail, rfl, rfl⟩ := writeBlockBatch_ok.mp h
  have hold : commit s st.batch .metadata = s .metadata := writeTransactions_frame (by decide) hloop
  have hbase : commit s (block.dustRegistrationEvents.foldl (applyRegistrationEvent s block.height)
      (st.touchedAddresses.toList.foldl writeAddress balances) ++
        [Op.put .blocks (be 8 block.height) (blockRecord block ids.nextTxId transactions.length),
          Op.put .blocksByHash block.hash.val block.height]) .metadata = s .metadata := by
    rw [commit_append, commit_cons, commit_cons, commit_nil, apply_put_other _ (by decide),
      apply_put_other _ (by decide), registrations_frame (by decide), writeAddresses_frame (by decide),
      writeBalances_frame (by decide) htail, hold]
  have hne := metaKeys_nodup
  have hrev := List.nodup_reverse.mpr metaKeys_nodup
  simp only [metaKeys, List.reverse_cons, List.reverse_nil, List.nil_append, List.cons_append,
    List.nodup_cons, List.mem_cons, List.not_mem_nil, or_false, not_or] at hne hrev
  rw [blockBatch_eq]
  by_cases hzero : block.height = 0
  · simp only [metaOps, genesisHash, hzero, if_true, List.cons_append, List.nil_append, commit_cons,
      commit_nil, apply_put_same, get_insert]
  · simp only [metaOps, genesisHash, hzero, if_false, List.append_nil, commit_cons, commit_nil,
      apply_put_same, get_insert, hne, hrev, hbase]

/-- What the tables say of the blocks that have been indexed. -/
structure Behind (libs : LedgerLibs L) (blocks : List Block) (p : Progress L) : Prop where
  lastHeight : lastIndexedHeight p.tables = blocks.getLast?.map Block.height
  record : ∀ last, blocks.getLast? = some last →
    ∃ record, Schema.block p.tables last.height = some record ∧ record.hash = last.hash
  timestamp : (tipTimestamp p.tables).getD 0 = p.parentBlockTimestamp
  counters : Counters.load p.tables = p.ids
  window : ledgerStateWindow p.tables = p.window
  genesis : genesisHash p.tables = blocks.head?.map Block.hash
  retention : p.window.length ≤ ledgerStateRetention
  first : blocks = [] → p.window = [] ∧ libs.new .oldest = .ok p.ledger
  last : blocks ≠ [] → Settled libs p.ledger ∧ ∃ key, libs.root p.ledger = .ok key ∧
    p.window.getLast? = some (key, libs.ledgerVersion p.ledger)

theorem fresh_metadata : lastIndexedHeight fresh = none ∧ tipTimestamp fresh = none ∧
    ledgerStateWindow fresh = [] ∧ genesisHash fresh = none := by decide

theorem Behind.start {ledger : L} (h : libs.new .oldest = .ok ledger) :
    Behind libs [] ⟨fresh, ledger, 0, [], Counters.load fresh⟩ where
  lastHeight := fresh_metadata.1
  record := fun _ hlast => by cases hlast
  timestamp := congrArg (Option.getD · 0) fresh_metadata.2.1
  counters := rfl
  window := fresh_metadata.2.2.1
  genesis := fresh_metadata.2.2.2
  retention := Nat.zero_le _
  first := fun _ => ⟨rfl, h⟩
  last := fun h => absurd rfl h

theorem trimWindow_length (window : LedgerStateWindow) :
    (trimWindow window).length ≤ ledgerStateRetention := by
  induction window with
  | nil => exact Nat.zero_le _
  | cons entry window ih =>
      rw [trimWindow]
      split
      · exact ih
      · rename_i hshort
        exact not_lt.mp hshort

theorem trimWindow_last (window : LedgerStateWindow) (entry : Bytes × LedgerVersion) :
    (trimWindow (window ++ [entry])).getLast? = some entry := by
  induction window with
  | nil => rfl
  | cons first window ih =>
      rw [List.cons_append, trimWindow]
      split
      · exact ih
      · rw [← List.cons_append]
        exact List.getLast?_concat

theorem Behind.next (hl : a.Lawful libs) (h : Behind libs blocks p) (hheight : block.height = blocks.length)
    (hnext : Progress.next libs genesisLedgerState p block = .ok p') :
    Behind libs (blocks ++ [block]) p' := by
  obtain ⟨transactions, ledger, timestamp, key, batch, ids, hreplay, hkey, hbatch, rfl⟩ := next_ok.mp hnext
  obtain ⟨hversion, hsettled, htime⟩ := replayBlock_version hl hreplay
  obtain ⟨hlast, htip, hids, hwindow⟩ := writeBlock_metadata (writeBlock_iff_batch.mpr ⟨batch, hbatch, rfl⟩)
  refine ⟨?_, ?_, ?_, hids, hwindow, ?_, trimWindow_length _, ?_, ?_⟩
  · rw [hlast, List.getLast?_concat]
    rfl
  · intro last hblock
    rw [List.getLast?_concat] at hblock
    obtain rfl := Option.some.inj hblock
    obtain ⟨st, balances, hloop, htail, rfl, -⟩ := writeBlockBatch_ok.mp hbatch
    refine ⟨blockRecord block p.ids.nextTxId transactions.length, ?_, rfl⟩
    rw [Schema.block]
    dsimp only
    rw [blockBatch_blocks hloop htail, get_insert, if_pos rfl]
  · rw [htip]
    exact htime.symm
  · rw [writeBlock_genesis hbatch, h.genesis, hheight]
    cases blocks <;> rfl
  · intro hnil
    exact absurd hnil (by simp)
  · intro _
    refine ⟨hsettled, key, hkey, ?_⟩
    rw [trimWindow_last, hversion]

def FromGenesis (blocks : List Block) : Prop :=
  ∀ (i : Nat) (block : Block), blocks[i]? = some block → block.height = i

theorem FromGenesis.take (h : FromGenesis blocks) (k : Nat) : FromGenesis (blocks.take k) := by
  intro i block hblock
  rw [List.getElem?_take] at hblock
  split at hblock
  · exact h i block hblock
  · cases hblock

theorem indexed_behind (hl : a.Lawful libs) (hheights : FromGenesis blocks)
    (h : indexed libs genesisLedgerState blocks = .ok p) : Behind libs blocks p := by
  induction blocks using List.reverseRecOn generalizing p with
  | nil =>
      obtain ⟨ledger, hnew, rfl⟩ := indexed_nil.mp h
      exact .start hnew
  | append_singleton blocks block ih =>
      rw [indexed_push] at h
      obtain ⟨before, hbefore, hnext⟩ := bind_ok.mp h
      have hfront := hheights.take blocks.length
      rw [List.take_left] at hfront
      exact (ih hfront hbefore).next hl (hheights _ _ List.getElem?_concat_length) hnext

end Behind

end Nightfrost.Pipeline
