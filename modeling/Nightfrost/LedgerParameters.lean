import Nightfrost.Api
import Nightfrost.ServingProcess

namespace Nightfrost.LedgerParameters

open ByteOrder Tables Partitions Domain Schema WriteBlock ExceptFold BlockStep BlockRun LedgerDb Worklist
  RootRepair IndexBlock LedgerArena Journal FinalizedBlocks BlockStream Pipeline Restart ServingProcess
  MovingStore Api

variable {L : Type} (libs : LedgerLibs L) (a : ArenaLibs L) (node : ChainNode)

section Handler

/-- A request that reads tables only, in a process that has an arena too. -/
def onTables {ε α : Type} : Reads Store ε α → Reads (Live a) ε α
  | .done result => .done result
  | .fail e => .fail e
  | .read next => .read (fun live => onTables (next live.tables))

theorem run_onTables {ε α : Type} (x : Reads Store ε α) (live : Nat → Live a) (t : Nat) :
    (onTables a x).run live t = x.run (fun t => (live t).tables) t := by
  induction x generalizing t with
  | done result => rfl
  | fail e => rfl
  | read next ih => exact ih (live t).tables (t + 1)

structure LedgerParametersResponse where
  blockHash : String
  blockHeight : Nat
  blockTime : Nat
  protocolVersion : Nat
  ledgerParameters : String
  deriving DecidableEq

def ledgerErrorText : LedgerError → String
  | .malformedTransaction message | .other message => message

def internal {α : Type} : Except String α → Except ApiError α
  | .ok result => .ok result
  | .error message => .error (.internal message)

/-- The parameters of a state that is loaded and read while the sweep is kept out. -/
def heldParameters (serialize : L → Except String Bytes) (key : Bytes) (version : LedgerVersion)
    (live : Live a) : Except String Bytes :=
  match a.load live.memory.arena key version with
  | .error e => .error (ledgerErrorText e)
  | .ok (ledger, _) => serialize ledger

def ledgerParametersLatest (serialize : L → Except String Bytes) :
    Reads (Live a) ApiError (PointResponse LedgerParametersResponse) := do
  match ← query (fun live : Live a => lastIndexedHeight live.tables) with
  | none => .fail (.notFound "no indexed block")
  | some height =>
      match ← query (fun live : Live a => Schema.block live.tables height) with
      | none => .fail (.internal "indexed tip block is missing")
      | some block =>
          match block.ledgerStateRoot with
          | none => .fail (.internal "indexed tip has no persisted ledger state")
          | some stateKey => do
              let version ← liftExcept (internal (ProtocolVersion.tryFrom block.protocolVersion))
              let held ← query (heldParameters a serialize stateKey version.ledgerVersion)
              let ledgerParameters ← liftExcept (internal held)
              onTables a (response ⟨hexEncode block.hash.val, height, block.timestamp, block.protocolVersion,
                hexEncode ledgerParameters⟩)

end Handler

section Window

variable {libs} {a} {genesisLedgerState : Bytes} {blocks : List Block} {p q : Progress L} {block : Block}

theorem trimWindow_reverse (window : LedgerStateWindow) :
    (trimWindow window).reverse = window.reverse.take ledgerStateRetention := by
  induction window with
  | nil => simp [trimWindow]
  | cons entry window ih =>
      by_cases hlong : ledgerStateRetention < (entry :: window).length
      · rw [trimWindow_long hlong, ih, List.reverse_cons, List.take_append_of_le_length]
        rw [List.length_reverse]
        exact Nat.lt_succ_iff.mp hlong
      · rw [trimWindow_short (not_lt.mp hlong), List.take_of_length_le]
        rw [List.length_reverse]
        exact not_lt.mp hlong

theorem indexed_window (hl : a.Lawful libs)
    (h : indexed libs genesisLedgerState (blocks ++ [block]) = .ok p) :
    ∃ before key, indexed libs genesisLedgerState blocks = .ok before ∧ libs.root p.ledger = .ok key ∧
      p.window.reverse = ((key, libs.ledgerVersion p.ledger) :: before.window.reverse).take
        ledgerStateRetention := by
  rw [indexed_push] at h
  obtain ⟨before, hbefore, hnext⟩ := bind_ok.mp h
  obtain ⟨transactions, ledger, timestamp, key, batch, ids, hreplay, hkey, -, rfl⟩ := next_ok.mp hnext
  refine ⟨before, key, hbefore, hkey, ?_⟩
  rw [trimWindow_reverse, List.reverse_append, (replayBlock_version hl hreplay).1]
  rfl

theorem window_entry (hl : a.Lawful libs) {behind : Nat} (hbehind : behind < blocks.length)
    (hretained : behind < ledgerStateRetention) (h : indexed libs genesisLedgerState blocks = .ok p)
    (hq : indexed libs genesisLedgerState (blocks.take (blocks.length - behind)) = .ok q) :
    ∃ key, libs.root q.ledger = .ok key ∧
      p.window.reverse[behind]? = some (key, libs.ledgerVersion q.ledger) := by
  induction blocks using List.reverseRecOn generalizing p behind with
  | nil => exact absurd hbehind (Nat.not_lt_zero _)
  | append_singleton blocks block ih =>
      obtain ⟨before, key, hbefore, hkey, hwindow⟩ := indexed_window hl h
      rw [hwindow, List.getElem?_take_of_lt hretained]
      cases behind with
      | zero =>
          rw [Nat.sub_zero, List.take_length, h] at hq
          obtain rfl := Except.ok.inj hq
          exact ⟨key, hkey, rfl⟩
      | succ behind =>
          rw [List.length_append, List.length_singleton] at hbehind hq
          have hlast : blocks.length + 1 - (behind + 1) = blocks.length - behind := by omega
          rw [hlast, List.take_append_of_le_length (Nat.sub_le _ _)] at hq
          exact ih (by omega) (Nat.lt_of_succ_lt hretained) hbefore hq

theorem indexed_record (hheights : FromGenesis blocks)
    (h : indexed libs genesisLedgerState blocks = .ok p) {i : Nat} (hblock : blocks[i]? = some block) :
    ∃ firstTxId txCount, Schema.block p.tables i = some (blockRecord block firstTxId txCount) := by
  induction blocks using List.reverseRecOn generalizing p with
  | nil => cases hblock
  | append_singleton blocks last ih =>
      rw [indexed_push] at h
      obtain ⟨before, hbefore, hnext⟩ := bind_ok.mp h
      obtain ⟨transactions, ledger, timestamp, key, batch, ids, -, -, hbatch, rfl⟩ := next_ok.mp hnext
      obtain ⟨st, balances, hloop, htail, rfl, -⟩ := writeBlockBatch_ok.mp hbatch
      have hlast : last.height = blocks.length := hheights _ _ List.getElem?_concat_length
      have hfront := hheights.take blocks.length
      rw [List.take_left] at hfront
      rw [Schema.block]
      dsimp only
      rw [blockBatch_blocks hloop htail, get_insert]
      by_cases hi : i = blocks.length
      · rw [hi, List.getElem?_concat_length] at hblock
        obtain rfl := Option.some.inj hblock
        exact ⟨_, _, by rw [hi, hlast, if_pos rfl]⟩
      · have hheight := hheights i block hblock
        have hlt : i < blocks.length := by
          have hbound := (List.getElem?_eq_some_iff.mp hblock).1
          rw [List.length_append, List.length_singleton] at hbound
          omega
        rw [List.getElem?_append_left hlt] at hblock
        obtain ⟨firstTxId, txCount, hrecord⟩ := ih hfront hbefore hblock
        refine ⟨firstTxId, txCount, ?_⟩
        rw [if_neg, ← hrecord, Schema.block]
        intro hkeys
        have hsame := be_injective (w := 8) last.height_lt (hheight ▸ block.height_lt) hkeys
        omega

theorem indexed_root (hl : a.Lawful libs) (h : indexed libs genesisLedgerState (blocks ++ [block]) = .ok p)
    {root : Bytes} (hroot : block.ledgerStateRoot = some root) : libs.root p.ledger = .ok root ∧
      libs.ledgerVersion p.ledger = block.protocolVersion.ledgerVersion := by
  rw [indexed_push] at h
  obtain ⟨before, -, hnext⟩ := bind_ok.mp h
  obtain ⟨transactions, ledger, timestamp, key, batch, ids, hreplay, hkey, -, rfl⟩ := next_ok.mp hnext
  refine ⟨?_, (replayBlock_version hl hreplay).1⟩
  obtain ⟨states, -, hreplay⟩ := bind_ok.mp hreplay
  obtain ⟨replay, -, hreplay⟩ := bind_ok.mp hreplay
  obtain ⟨next, -, hreplay⟩ := bind_ok.mp hreplay
  obtain ⟨_, hcheck, hreplay⟩ := bind_ok.mp hreplay
  have hledger : states.2.getD next = ledger := congrArg (fun r => r.2.1) (Except.ok.inj hreplay)
  rw [hledger] at hcheck
  obtain ⟨root', hroot', hcheck⟩ := bind_ok.mp hcheck
  have hsame : root = root' := by
    by_contra hne
    rw [hroot, Option.any_some, decide_eq_true hne] at hcheck
    cases hcheck
  rw [hsame]
  exact context_ok.mp hroot'

end Window

section Requests

variable {libs} {a} {node} {live : Nat → Live a}

theorem serving_at (hl : a.Lawful libs) (hn : Trusted node) {p : Progress L} {hashes : List ArenaHash}
    (hstart : Serving libs a node p hashes (live 0)) (hsteps : ∀ t, Steps libs a node (live t) (live (t + 1)))
    (t : Nat) : ∃ p' hashes', Serving libs a node p' hashes' (live t) := by
  induction t with
  | zero => exact ⟨p, hashes, hstart⟩
  | succ t ih =>
      obtain ⟨p', hashes', h⟩ := ih
      exact (hsteps t).serving hl hn h

theorem indexed_mono (hsteps : ∀ t, Steps libs a node (live t) (live (t + 1))) {t t' : Nat} (hle : t ≤ t') :
    (live t).indexed ≤ (live t').indexed := by
  induction t' with
  | zero =>
      obtain rfl := Nat.le_zero.mp hle
      exact Nat.le_refl _
  | succ t' ih =>
      rcases Nat.le_succ_iff.mp hle with hlt | rfl
      · exact (ih hlt).trans (hsteps t').indexed_le
      · exact Nat.le_refl _

variable {p : Progress L} {hashes : List ArenaHash} {moment : Live a}

theorem serving_tip (h : Serving libs a node p hashes moment) (hl : a.Lawful libs) (hn : Trusted node)
    (hpos : 0 < moment.indexed) : lastIndexedHeight moment.tables = some (moment.indexed - 1) := by
  have hbehind := indexed_behind hl (hn.heights.take moment.indexed) h.indexed
  rw [h.tables, hbehind.lastHeight, List.getLast?_eq_getElem?, List.length_take, Nat.min_eq_left h.bound]
  have hlt : moment.indexed - 1 < (node.finalized.take moment.indexed).length := by
    rw [List.length_take, Nat.min_eq_left h.bound]
    omega
  rw [List.getElem?_eq_getElem hlt, Option.map_some,
    hn.heights.take moment.indexed _ _ (List.getElem?_eq_getElem hlt)]

theorem serving_record (h : Serving libs a node p hashes moment) (hn : Trusted node) {i : Nat} {block : Block}
    (hblock : node.finalized[i]? = some block) (hi : i < moment.indexed) :
    ∃ firstTxId txCount, Schema.block moment.tables i = some (blockRecord block firstTxId txCount) := by
  rw [h.tables]
  apply indexed_record (hn.heights.take moment.indexed) h.indexed
  rw [List.getElem?_take_of_lt hi, hblock]

theorem mem_of_trimmed {window : LedgerStateWindow} {entry : Bytes × LedgerVersion}
    (h : entry ∈ trimWindow window) : entry ∈ window := by
  rw [← List.mem_reverse, trimWindow_reverse] at h
  exact List.mem_reverse.mp (List.mem_of_mem_take h)

/-- A state loads as long as it is not as many blocks behind as the window keeps. -/
theorem serving_loads (h : Serving libs a node p hashes moment) (hl : a.Lawful libs) (hn : Trusted node)
    {k : Nat} (hpos : 0 < k) (hle : k ≤ moment.indexed) (hlag : moment.indexed < k + ledgerStateRetention)
    {q : Progress L} (hq : Pipeline.indexed libs node.genesisLedgerState (node.finalized.take k) = .ok q)
    {key : Bytes} (hkey : libs.root q.ledger = .ok key) :
    ∃ arena, a.load moment.memory.arena key (libs.ledgerVersion q.ledger) = .ok (q.ledger, arena) := by
  have hlength : (node.finalized.take moment.indexed).length = moment.indexed := by
    rw [List.length_take, Nat.min_eq_left h.bound]
  have htake : (node.finalized.take moment.indexed).take
      ((node.finalized.take moment.indexed).length - (moment.indexed - k)) = node.finalized.take k := by
    rw [hlength, List.take_take]
    congr 1
    omega
  obtain ⟨key', hkey', hentry⟩ := window_entry hl (by omega : moment.indexed - k <
    (node.finalized.take moment.indexed).length) (by omega) h.indexed (htake ▸ hq)
  obtain rfl := Except.ok.inj (hkey.symm.trans hkey')
  have hmem := List.mem_reverse.mp (List.mem_of_getElem? hentry)
  rw [← h.trimmed] at hmem
  have hroot := hash_mem h.roots (mem_of_trimmed hmem) (hl.arenaRootHash _ key hkey)
  have hne : node.finalized.take k ≠ [] := by
    have hbound := h.bound
    intro hnil
    have hzero := congrArg List.length hnil
    rw [List.length_take, List.length_nil] at hzero
    omega
  have hsettled := ((indexed_behind hl (hn.heights.take k) hq).last hne).1
  obtain ⟨arena, hload, -⟩ := hl.load moment.memory.arena q.ledger key hsettled hkey
    (h.held.complete _ (List.mem_append_left _ hroot))
  exact ⟨arena, hload⟩

theorem response_run (hl : a.Lawful libs) (hn : Trusted node)
    (hserving : ∀ t, ∃ p hashes, Serving libs a node p hashes (live t))
    (hsteps : ∀ t, Steps libs a node (live t) (live (t + 1))) {t : Nat} (hpos : 0 < (live t).indexed)
    {T : Type} (results : T) :
    ∃ answer t', (onTables a (response results)).run live t = .ok (answer, t') ∧ answer.results = results := by
  obtain ⟨p, hashes, hnow⟩ := hserving t
  obtain ⟨p', hashes', hnext⟩ := hserving (t + 1)
  have hlt : (live t).indexed - 1 < (live (t + 1)).indexed := by
    have hmono := indexed_mono hsteps (Nat.le_add_right t 1)
    omega
  have hbound : (live t).indexed - 1 < node.finalized.length := lt_of_lt_of_le hlt hnext.bound
  obtain ⟨firstTxId, txCount, hrecord⟩ :=
    serving_record hnext hn (List.getElem?_eq_getElem hbound) hlt
  refine ⟨⟨results, some (.from ⟨(live t).indexed - 1, (node.finalized[(live t).indexed - 1]).hash⟩)⟩, t + 2, ?_, rfl⟩
  rw [run_onTables, Api.response, run_bind, Api.currentTip, run_bind, run_query, serving_tip hnow hl hn hpos]
  dsimp only
  rw [run_bind, run_query]
  dsimp only
  rw [hrecord]
  rfl

theorem resumed_at (hl : a.Lawful libs) (hn : Trusted node) {d d' : Directory a}
    (h : Reaches libs a node d) {fuel : Nat} {st : Memory a} {resumeFrom : Option BlockRef}
    (hresume : (resume libs a node fuel).run d = (.ok (st, resumeFrom), d')) :
    ∃ p hashes, Serving libs a node p hashes (between st (Pipeline.tables d') (startHeight resumeFrom)) := by
  obtain ⟨hsafe, k, p, hashes, hstage⟩ := h.stage hl hn
  have hkeeps := (resume_keeps (E := fun _ => True) hl hn hsafe hstage fuel).run
  rw [hresume] at hkeeps
  obtain ⟨-, hready, hlast⟩ := hkeeps
  have hfrom : resumeFrom = (node.finalized.take k).getLast?.map blockRef := hlast
  have hstart : startHeight resumeFrom = k := by
    rcases hstage.lastHeight hl hn with ⟨rfl, hnone, -⟩ | ⟨block, hsome, hheight, -⟩
    · rw [hfrom, hnone]
      rfl
    · rw [hfrom, hsome]
      exact hheight
  rw [hstart]
  exact ⟨p, hashes, ready_serving hready hl hn⟩

/-- The parameters are those of the ledger state behind the tip that the request began with,
unless the pipeline moves on by as many blocks as it keeps states before the state is read. -/
theorem parameters_of_tip (hl : a.Lawful libs) (hn : Trusted node)
    (hversions : ∀ block ∈ node.finalized,
      ProtocolVersion.tryFrom block.protocolVersion.toU32 = .ok block.protocolVersion)
    {d d' : Directory a} (hd : Reaches libs a node d) {fuel : Nat} {st : Memory a}
    {resumeFrom : Option BlockRef} (hresume : (resume libs a node fuel).run d = (.ok (st, resumeFrom), d'))
    (hstart : live 0 = between st (Pipeline.tables d') (startHeight resumeFrom))
    (hsteps : ∀ t, Steps libs a node (live t) (live (t + 1))) {t : Nat} (hpos : 0 < (live t).indexed)
    (hlag : (live (t + 2)).indexed < (live t).indexed + ledgerStateRetention) {block : Block}
    (hblock : node.finalized[(live t).indexed - 1]? = some block) {root : Bytes}
    (hroot : block.ledgerStateRoot = some root) (serialize : L → Except String Bytes) :
    ∃ p, indexed libs node.genesisLedgerState (node.finalized.take (live t).indexed) = .ok p ∧
      (∀ parameters, serialize p.ledger = .ok parameters → ∃ answer t',
        (ledgerParametersLatest a serialize).run live t = .ok (answer, t') ∧
        answer.results = ⟨hexEncode block.hash.val, block.height, block.timestamp,
          block.protocolVersion.toU32, hexEncode parameters⟩) ∧
      ∀ message, serialize p.ledger = .error message →
        (ledgerParametersLatest a serialize).run live t = .error (.internal message) := by
  have hbegin : ∃ p hashes, Serving libs a node p hashes (live 0) := hstart ▸ resumed_at hl hn hd hresume
  obtain ⟨p₀, hashes₀, hzero⟩ := hbegin
  have hserving := serving_at hl hn hzero hsteps
  obtain ⟨p, hashes, hnow⟩ := hserving t
  obtain ⟨p₁, hashes₁, hnext⟩ := hserving (t + 1)
  obtain ⟨p₂, hashes₂, hread⟩ := hserving (t + 2)
  have hmono := indexed_mono hsteps (Nat.le_add_right t 1)
  have hlt : (live t).indexed - 1 < (live (t + 1)).indexed := by omega
  obtain ⟨firstTxId, txCount, hrecord⟩ := serving_record hnext hn hblock hlt
  have htake : node.finalized.take (live t).indexed =
      node.finalized.take ((live t).indexed - 1) ++ [block] := by
    obtain ⟨k, hk⟩ := Nat.exists_eq_add_of_le' hpos
    rw [hk] at hblock ⊢
    rw [Nat.add_sub_cancel] at hblock ⊢
    rw [List.take_add_one, hblock]
    rfl
  have hindexed := hnow.indexed
  rw [htake] at hindexed
  obtain ⟨hkey, hversion⟩ := indexed_root hl hindexed hroot
  obtain ⟨arena, hload⟩ := serving_loads hread hl hn hpos (indexed_mono hsteps (by omega)) hlag hnow.indexed hkey
  rw [hversion] at hload
  have hheld : ∀ result, serialize p.ledger = result →
      heldParameters a serialize root block.protocolVersion.ledgerVersion (live (t + 2)) = result := by
    intro result hresult
    rw [heldParameters, hload]
    exact hresult
  have hversion' : (internal (ProtocolVersion.tryFrom block.protocolVersion.toU32) :
      Except ApiError ProtocolVersion) = .ok block.protocolVersion := by
    rw [hversions block (List.mem_of_getElem? hblock)]
    rfl
  have hrun : ∀ result, serialize p.ledger = result → (ledgerParametersLatest a serialize).run live t =
      (do
        let ledgerParameters ← liftExcept (internal result)
        onTables a (response ⟨hexEncode block.hash.val, (live t).indexed - 1, block.timestamp,
          block.protocolVersion.toU32, hexEncode ledgerParameters⟩) :
        Reads (Live a) ApiError (PointResponse LedgerParametersResponse)).run live (t + 3) := by
    intro result hresult
    rw [ledgerParametersLatest, run_bind, run_query, serving_tip hnow hl hn hpos]
    dsimp only
    rw [run_bind, run_query]
    dsimp only
    rw [hrecord]
    dsimp only [blockRecord]
    rw [hroot]
    dsimp only
    rw [run_bind, run_liftExcept.mpr ⟨hversion', rfl⟩]
    dsimp only
    rw [run_bind, run_query, hheld result hresult]
  have hheight := hn.heights _ block hblock
  refine ⟨p, hnow.indexed, ?_, ?_⟩
  · intro parameters hparameters
    obtain ⟨answer, t', hanswer, hresults⟩ := response_run hl hn hserving hsteps
      (lt_of_lt_of_le hpos (indexed_mono hsteps (Nat.le_add_right t 3)))
      (⟨hexEncode block.hash.val, (live t).indexed - 1, block.timestamp, block.protocolVersion.toU32,
        hexEncode parameters⟩ : LedgerParametersResponse)
    refine ⟨answer, t', ?_, ?_⟩
    · rw [hrun _ hparameters]
      exact hanswer
    · rw [hresults, hheight]
  · intro message hmessage
    rw [hrun _ hmessage]
    rfl

end Requests

section Moving

def secondBlock : Block :=
  { emptyBlock 1 one_lt_u64 with hash := .filled 32 2, parentHash := .filled 32 1 }

def secondIndexed : Task leavesLibs (Pipeline.Memory (L := LedgerVersion × UInt8) leavesLibs) := do
  let (st, _) ← resume countingLedger leavesLibs sampleNode 0
  indexNext countingLedger leavesLibs sampleNode (steady 1) st secondBlock

theorem secondIndexed_ok : ((secondIndexed.run cutDisk).1.toBool) = true := by decide +kernel

theorem resumed_behind :
    (((resume countingLedger leavesLibs sampleNode 0).run cutDisk).1.toOption.map fun r =>
      (startHeight r.2, decide (r.1.window.length ≤ ledgerStateRetention))) = some (1, true) := by
  decide +kernel

/-- The second block is indexed while the request is answered. -/
theorem parameters_of_tip_moving : ∃ (live : Nat → Live leavesLibs) (p : Progress (LedgerVersion × UInt8)),
    (live 0).indexed = 1 ∧ (live 1).indexed = 2 ∧ ∃ answer t',
      (ledgerParametersLatest leavesLibs fun ledger => .ok [ledger.2]).run live 0 = .ok (answer, t') ∧
      answer.results.blockHeight = 0 ∧ answer.results.ledgerParameters = hexEncode [p.ledger.2] := by
  rcases hrun : secondIndexed.run cutDisk with ⟨e | st', d''⟩
  · have hok := secondIndexed_ok
    rw [hrun] at hok
    cases hok
  obtain ⟨⟨st, resumeFrom⟩, d', hresume, hnext⟩ := run_bind_done hrun
  have hbehind := resumed_behind
  rw [hresume] at hbehind
  obtain ⟨hstart, hshort⟩ := Prod.mk.inj (Option.some.inj hbehind)
  have hsteps := indexNext_steps (k := 1) rfl (of_decide_eq_true hshort) hnext
  let live : Nat → Live leavesLibs := fun t =>
    if t = 0 then between st (Pipeline.tables d') 1 else between st' (Pipeline.tables d'') 2
  have hlive : ∀ t, Steps countingLedger leavesLibs sampleNode (live t) (live (t + 1)) := by
    intro t
    cases t with
    | zero => exact hsteps
    | succ t => exact .refl
  have hversions : ∀ block ∈ sampleNode.finalized,
      ProtocolVersion.tryFrom block.protocolVersion.toU32 = .ok block.protocolVersion := by decide
  have hzero : live 0 = between st (Pipeline.tables d') (startHeight resumeFrom) := by
    rw [hstart]
    rfl
  obtain ⟨p, -, hanswer, -⟩ := parameters_of_tip leavesLibs_lawful sampleNode_trusted hversions reaches_cut
    hresume hzero hlive (t := 0) (show 0 < 1 from Nat.one_pos)
    (show 2 < 1 + ledgerStateRetention by decide) rfl rfl fun ledger => .ok [ledger.2]
  obtain ⟨answer, t', hrequest, hresults⟩ := hanswer [p.ledger.2] rfl
  exact ⟨live, p, rfl, rfl, answer, t', hrequest, by rw [hresults]; rfl, by rw [hresults]⟩

end Moving

end Nightfrost.LedgerParameters
