import Nightfrost.DenseIds
import Nightfrost.Endpoints

namespace Nightfrost.Lookups

open ByteOrder Tables Partitions Domain Schema WriteBlock MovingStore Api ExceptFold EntityLog
  BlockStep BlockRun Timeline Cursors Pages Listings Endpoints DenseIds

/-- Decimal digits, with a plus sign or none, of a number below 2^64. -/
def parseU64 (id : String) : Option Nat :=
  let digits := match id.toList with
    | '+' :: rest => rest
    | chars => chars
  if digits.isEmpty ∨ ¬ digits.all Char.isDigit then none
  else
    let n := digits.foldl (fun n c => 10 * n + (c.toNat - '0'.toNat)) 0
    if n < 2 ^ 64 then some n else none

section Blocks

def blockHeightByHash (s : Store) (hash : Bytes) : Option Nat := (s .blocksByHash)[hash]?

def resolveHeight (libs : AddressLibs) (id : String) : Handler Nat :=
  match parseU64 id with
  | some height => pure height
  | none =>
      match (libs.hexDecode id).filter (fun hash => hash.length = 32) with
      | none => .fail (.badRequest "invalid block hash or height")
      | some hash => do
          match ← query (blockHeightByHash · hash) with
          | none => .fail (.notFound "block not found")
          | some height => pure height

def resolveBlock (libs : AddressLibs) (id : String) : Handler (Nat × BlockRecord) := do
  let height ← resolveHeight libs id
  match ← query (Schema.block · height) with
  | none => .fail (.notFound "block not found")
  | some record => pure (height, record)

def blockTxsScope (height : Nat) (order : Order) : Bytes :=
  scope [utf8 "block_txs", be 8 height] order

def blockTxsAfter : Option Bytes → Except ApiError (Option Nat)
  | none => .ok none
  | some position =>
      if position.length = 4 then .ok (some (fromBe position))
      else .error (.badRequest "invalid block transaction cursor")

def blockTxsIndexes (record : BlockRecord) (order : Order) (after : Option Nat) : List Nat :=
  match order with
  | .asc => (List.range record.txCount).filter (fun index => after.all (fun after => index > after))
  | .desc =>
      (List.range record.txCount).reverse.filter (fun index => after.all (fun after => index < after))

def indexedHash (record : BlockRecord) (index : Nat) : Handler (Nat × String) := do
  let txId := record.firstTxId + index
  match ← query (tx · txId) with
  | none => .fail (.internal ("missing tx record " ++ toString txId))
  | some tx => pure (index, hexEncode tx.hash.val)

def blockTxs (libs : AddressLibs) (codec : CursorCodec) (id : String) (pagination : Pagination) :
    Handler (ApiResponse (List String)) := do
  let (height, record) ← resolveBlock libs id
  let queryScope := blockTxsScope height pagination.order
  let page ← pageContext codec pagination queryScope
  let after ← liftExcept (blockTxsAfter page.position)
  let indexedHashes ← collect (indexedHash record)
    ((blockTxsIndexes record pagination.order after).take (pagination.count + 1))
  let hasMore := indexedHashes.length > pagination.count
  let indexedHashes := indexedHashes.take pagination.count
  let cursor := nextCursor codec queryScope page.anchor
    (indexedHashes.getLast?.map (fun entry => be 4 entry.1)) hasMore
  pure ⟨indexedHashes.map Prod.snd, page.anchor.map TipResponse.from, cursor⟩

end Blocks

section Events

def txIdsByHash (s : Store) (hash : ByteArr 32) : List Nat :=
  (scanPrefix (s .txsByHash) hash.val).map (fun entry => keyU64Suffix entry.1)

def txByHash (libs : AddressLibs) (hash : String) : Handler (Nat × TxRecord) := do
  match libs.hexDecode hash with
  | none => .fail (.badRequest "invalid transaction hash")
  | some bytes =>
      if h : bytes.length = 32 then do
        match ← query (fun s => (txIdsByHash s ⟨bytes, h⟩).getLast?) with
        | none => .fail (.notFound "transaction not found")
        | some txId =>
            match ← query (tx · txId) with
            | none => .fail (.notFound "transaction not found")
            | some record => pure (txId, record)
      else .fail (.badRequest "invalid transaction hash")

def txEvent (eventId : Nat) : Handler EventResponse := do
  match ← query (eventAt · eventId) with
  | none => .fail (.internal "missing event record")
  | some record => EventResponse.new eventId record

def txEvents (libs : AddressLibs) (hash : String) : Handler (PointResponse (List EventResponse)) := do
  let (_, record) ← txByHash libs hash
  let events ← collect txEvent (List.range' record.firstEventId record.eventCount)
  response events

end Events

/-- From a moment on, a request is not answered with an internal error. -/
def Unbroken {α : Type} (x : Handler α) (σ : Nat → Store) (t : Nat) : Prop :=
  FailsIn (fun e => e.statusCode ≠ 500) x σ t

section Requests

variable {σ : Nat → Store} {t : Nat}

theorem unbroken_notFound {α : Type} (message : String) :
    Unbroken (.fail (.notFound message) : Handler α) σ t :=
  failsIn_fail (by decide : (404 : Nat) ≠ 500)

theorem unbroken_badRequest {α : Type} (message : String) :
    Unbroken (.fail (.badRequest message) : Handler α) σ t :=
  failsIn_fail (by decide : (400 : Nat) ≠ 500)

theorem unbroken_gone {α : Type} (message : String) :
    Unbroken (.fail (.gone message) : Handler α) σ t :=
  failsIn_fail (by decide : (410 : Nat) ≠ 500)

theorem validate_error {pagination : Pagination} {e : ApiError} (h : pagination.validate = .error e) :
    e.statusCode = 400 := by
  rw [Pagination.validate] at h
  split at h
  · cases h
    rfl
  · split at h
    · cases h
      rfl
    · split at h
      · cases h
        rfl
      · cases h

theorem decodePayload_error {codec : CursorCodec} {queryScope payload : Bytes} {e : ApiError}
    (hlen : fixedPayloadLen ≤ payload.length)
    (h : codec.decodePayload queryScope payload hlen = .error e) : e.statusCode = 400 := by
  rw [CursorCodec.decodePayload] at h
  split at h
  · cases h
    rfl
  · split at h
    · cases h
      rfl
    · split at h
      · cases h
        rfl
      · cases h

theorem decode_error {codec : CursorCodec} {token : String} {queryScope : Bytes} {e : ApiError}
    (h : codec.decode token queryScope = .error e) : e.statusCode = 400 := by
  rw [CursorCodec.decode] at h
  split at h
  · cases h
    rfl
  · split at h
    · cases h
      rfl
    · split at h
      · cases h
        rfl
      · dsimp only at h
        split at h
        · cases h
          rfl
        · exact decodePayload_error _ h

theorem validateAnchor_unbroken (anchor : TipAnchor) : Unbroken (validateAnchor anchor) σ t := by
  apply failsIn_query
  split
  · exact unbroken_gone _
  · split
    · exact unbroken_gone _
    · exact failsIn_pure _

variable {blocks : Nat → List DerivedBlock} (h : Growing σ blocks)

include h

theorem currentTip_unbroken (t : Nat) : Unbroken currentTip σ t := by
  rcases h.currentTip t with ⟨-, htip⟩ | ⟨record, -, -, htip⟩ <;>
    exact failsIn_of_ok htip

theorem response_unbroken {T : Type} (results : T) (t : Nat) : Unbroken (response results) σ t := by
  obtain ⟨answer, t', hrun, -⟩ := h.response results t
  exact failsIn_of_ok hrun

theorem pageContext_unbroken (codec : CursorCodec) (pagination : Pagination) (queryScope : Bytes)
    (t : Nat) : Unbroken (pageContext codec pagination queryScope) σ t := by
  refine failsIn_bind (failsIn_liftExcept fun e he => ?_) (fun _ t₁ _ _ => ?_)
  · rw [validate_error he]
    decide
  · split
    · refine failsIn_bind (failsIn_liftExcept fun e he => ?_) (fun decoded t₂ _ _ => ?_)
      · rw [decode_error he]
        decide
      · refine failsIn_bind (validateAnchor_unbroken _) (fun _ t₃ _ _ => ?_)
        exact failsIn_pure _
    · refine failsIn_bind (currentTip_unbroken h t₁) (fun tip t₂ _ _ => ?_)
      exact failsIn_pure _

end Requests

section Listed

variable {σ : Nat → Store} {blocks : Nat → List DerivedBlock} {Row : Type}

theorem pageRows_unbroken {E R : Type} {rowOf : E → Handler (RowStep R)} {count t₀ : Nat}
    {entries : List E} (hrow : ∀ e ∈ entries, ∀ t, t₀ ≤ t → Unbroken (rowOf e) σ t) {t : Nat}
    (hle : t₀ ≤ t) (rows : List R) : Unbroken (pageRows rowOf count entries rows) σ t := by
  induction entries generalizing t rows with
  | nil => exact failsIn_pure _
  | cons e entries ih =>
      have hrest : ∀ e ∈ entries, ∀ t, t₀ ≤ t → Unbroken (rowOf e) σ t :=
        fun e he => hrow e (List.mem_cons_of_mem _ he)
      refine failsIn_bind (hrow e List.mem_cons_self t hle) (fun step t₁ hle₁ _ => ?_)
      cases step with
      | stop => exact failsIn_pure _
      | skip => exact ih hrest (hle.trans hle₁) rows
      | row r =>
          show Unbroken (if _ then _ else _) σ t₁
          split
          · exact failsIn_pure _
          · exact ih hrest (hle.trans hle₁) _

theorem request_unbroken (h : Growing σ blocks) {l : Listing Row}
    (hrow : ∀ t anchor (e : Bytes × l.part.Val), (σ t l.part)[e.1]? = some e.2 → ∀ t', t ≤ t' →
      Unbroken (l.rowOf anchor e) σ t')
    (codec : CursorCodec) (pagination : Pagination) (t : Nat) :
    Unbroken (l.request codec pagination) σ t := by
  refine failsIn_bind (pageContext_unbroken h codec pagination _ t) (fun page t₁ _ _ => ?_)
  refine failsIn_bind (failsIn_liftExcept fun e he => ?_) (fun cursorKey t₂ _ _ => ?_)
  · unfold Listing.cursorKey at he
    split at he
    · cases he
    · split at he
      · cases he
      · cases he
        exact (by decide : (400 : Nat) ≠ 500)
  · apply failsIn_query
    refine failsIn_bind ?_ (fun rows t₃ _ _ => failsIn_pure _)
    exact pageRows_unbroken (fun e he t hle => hrow t₂ page.anchor e ((mem_entries l).mp he).1 t hle)
      (Nat.le_succ t₂) []

variable {t t' : Nat} (h : Growing σ blocks)

include h

theorem addressTx_unbroken (owner : ByteArr 32) (eventFrom : EventFrom) (anchor : Option TipAnchor)
    {e : Bytes × Unit} (hget : (σ t .addrTxs)[e.1]? = some e.2) (hle : t ≤ t') :
    Unbroken (addressTx anchor e) σ t' := by
  obtain ⟨txId, record, p, hrecord, -, -, hsuffix, -⟩ :=
    (addressListing_filed h owner eventFrom).entry t hget
  apply failsIn_query
  rw [hsuffix, h.tx hle hrecord]
  dsimp only
  split
  · exact failsIn_pure _
  · exact failsIn_pure _

theorem contractActionRow_unbroken (address : Bytes) (anchor : Option TipAnchor) {e : Bytes × Unit}
    (hget : (σ t .contractActionsByAddr)[e.1]? = some e.2) (hle : t ≤ t') :
    Unbroken (contractActionRow address anchor e) σ t' := by
  obtain ⟨actionId, record, p, hrecord, -, -, hsuffix, -⟩ :=
    (actionListing_filed h address).entry t hget
  have hlt := (logOf_owned (blocks t)).actions record (List.mem_of_getElem? hrecord)
  apply failsIn_query
  rw [hsuffix, h.action hle hrecord]
  dsimp only
  split
  · exact failsIn_pure _
  · split
    · exact failsIn_pure _
    · apply failsIn_query
      rw [h.tx (Nat.le_succ_of_le hle) (List.getElem?_eq_getElem hlt)]
      exact failsIn_pure _

theorem eventResponse_unbroken (hle : t ≤ t') {eventId : Nat} {record : EventRecord}
    (hget : (logOf (blocks t)).events[eventId]? = some record) (id : Nat) :
    Unbroken (EventResponse.new id record) σ t' := by
  obtain ⟨block, -, hblock⟩ := h.block hle (h.event_height hget)
  apply failsIn_query
  rw [hblock]
  exact failsIn_pure _

theorem ledgerEvent_unbroken (anchor : Option TipAnchor)
    {e : Bytes × EventRecord} (hget : (σ t .ledgerEvents)[e.1]? = some e.2) (hle : t ≤ t') :
    Unbroken (ledgerEvent anchor e) σ t' := by
  obtain ⟨ids, hrun⟩ := h.run t
  obtain ⟨eventId, hrecord, -⟩ := hrun.holds.tables.events.records.get_iff.mp hget
  unfold ledgerEvent
  dsimp only
  split
  · exact failsIn_pure _
  · exact failsIn_bind (eventResponse_unbroken h hle hrecord _) (fun _ _ _ _ => failsIn_pure _)

theorem contractEvent_unbroken (address : Bytes) (eventFrom : EventFrom) (anchor : Option TipAnchor)
    {e : Bytes × Unit} (hget : (σ t .eventsByContract)[e.1]? = some e.2) (hle : t ≤ t') :
    Unbroken (contractEvent address anchor e) σ t' := by
  obtain ⟨eventId, record, p, hrecord, -, -, hsuffix, -⟩ :=
    (contractEventListing_filed h address eventFrom).entry t hget
  have hlt := (logOf_owned (blocks t)).events record (List.mem_of_getElem? hrecord)
  rw [contractEvent]
  split
  · exact failsIn_pure _
  · apply failsIn_query
    rw [hsuffix, h.event hle hrecord]
    dsimp only
    split
    · exact failsIn_pure _
    · split
      · exact failsIn_pure _
      · apply failsIn_query
        rw [h.tx (Nat.le_succ_of_le hle) (List.getElem?_eq_getElem hlt)]
        exact failsIn_pure _

end Listed

section Found

variable {σ : Nat → Store} {blocks : Nat → List DerivedBlock} {t t' : Nat}
  (h : Growing σ blocks) (hcount : ∀ t, ∀ d ∈ blocks t, CountsFit d)

theorem resolveBlock_unbroken (libs : AddressLibs) (id : String) :
    Unbroken (resolveBlock libs id) σ t := by
  refine failsIn_bind ?_ (fun height t₁ _ _ => ?_)
  · rw [resolveHeight]
    split
    · exact failsIn_pure _
    · split
      · exact unbroken_badRequest _
      · apply failsIn_query
        split
        · exact unbroken_notFound _
        · exact failsIn_pure _
  · apply failsIn_query
    split
    · exact unbroken_notFound _
    · exact failsIn_pure _

theorem txByHash_unbroken (libs : AddressLibs) (hash : String) : Unbroken (txByHash libs hash) σ t := by
  rw [txByHash]
  split
  · exact unbroken_badRequest _
  · split
    · apply failsIn_query
      split
      · exact unbroken_notFound _
      · apply failsIn_query
        split
        · exact unbroken_notFound _
        · exact failsIn_pure _
    · exact unbroken_badRequest _

theorem resolveBlock_found {libs : AddressLibs} {id : String} {height : Nat} {record : BlockRecord}
    (hrun : (resolveBlock libs id).run σ t = .ok ((height, record), t')) :
    ∃ moment, moment < t' ∧ Schema.block (σ moment) height = some record := by
  obtain ⟨height', t₁, -, hrest⟩ := run_bind_ok.mp hrun
  obtain ⟨found, t₂, hread, hrest⟩ := run_bind_ok.mp hrest
  obtain ⟨rfl, rfl⟩ := Prod.mk.inj (Except.ok.inj hread)
  dsimp only at hrest
  split at hrest
  · cases hrest
  · rename_i block hblock
    obtain ⟨hpair, rfl⟩ := Prod.mk.inj (Except.ok.inj hrest)
    obtain ⟨rfl, rfl⟩ := Prod.mk.inj hpair
    exact ⟨t₁, Nat.lt_succ_self t₁, hblock⟩

theorem txByHash_found {libs : AddressLibs} {hash : String} {txId : Nat} {record : TxRecord}
    (hrun : (txByHash libs hash).run σ t = .ok ((txId, record), t')) :
    ∃ moment, moment < t' ∧ tx (σ moment) txId = some record := by
  rw [txByHash] at hrun
  split at hrun
  · cases hrun
  · split at hrun
    · obtain ⟨last, t₁, hread, hrest⟩ := run_bind_ok.mp hrun
      split at hrest
      · cases hrest
      · obtain ⟨found, t₂, hread', hrest⟩ := run_bind_ok.mp hrest
        obtain ⟨rfl, rfl⟩ := Prod.mk.inj (Except.ok.inj hread')
        dsimp only at hrest
        split at hrest
        · cases hrest
        · rename_i tx htx
          obtain ⟨hpair, rfl⟩ := Prod.mk.inj (Except.ok.inj hrest)
          obtain ⟨rfl, rfl⟩ := Prod.mk.inj hpair
          exact ⟨t₁, Nat.lt_succ_self t₁, htx⟩
    · cases hrun

include h hcount

theorem blockTx_stored {height : Nat} {record : BlockRecord}
    (hblock : Schema.block (σ t) height = some record) (hle : t ≤ t') {index : Nat}
    (hindex : index < record.txCount) : ∃ r, tx (σ t') (record.firstTxId + index) = some r := by
  obtain ⟨ids, hrun⟩ := h.run t
  have hc := h.consecutive t
  obtain ⟨i, hget, -⟩ := (hrun.cursor hc).records.get_iff.mp hblock
  have hrange := (logOf_ordered hc (hcount t)).txs
  have hmem : record.firstTxId + index ∈ List.range (logOf (blocks t)).txs.length := by
    rw [← hrange, List.mem_flatMap]
    refine ⟨record, List.mem_of_getElem? hget, ?_⟩
    rw [List.mem_range'_1]
    exact ⟨Nat.le_add_right _ _, Nat.add_lt_add_left hindex _⟩
  exact ⟨_, h.tx hle (List.getElem?_eq_getElem (List.mem_range.mp hmem))⟩

theorem txEvent_stored {txId : Nat} {record : TxRecord} (htx : tx (σ t) txId = some record)
    {eventId : Nat} (hevent : eventId ∈ List.range' record.firstEventId record.eventCount) :
    ∃ r, (logOf (blocks t)).events[eventId]? = some r := by
  obtain ⟨ids, hrun⟩ := h.run t
  obtain ⟨i, hget, -⟩ := hrun.holds.tables.txs.records.get_iff.mp htx
  have hmem : eventId ∈ List.range (logOf (blocks t)).events.length := by
    rw [← (logOf_shared (hcount t)).events, List.mem_flatMap]
    exact ⟨record, List.mem_of_getElem? hget, hevent⟩
  exact ⟨_, List.getElem?_eq_getElem (List.mem_range.mp hmem)⟩

theorem blockTxs_unbroken (libs : AddressLibs) (codec : CursorCodec) (id : String)
    (pagination : Pagination) (t : Nat) : Unbroken (blockTxs libs codec id pagination) σ t := by
  refine failsIn_bind (resolveBlock_unbroken libs id) (fun found t₁ _ hfound => ?_)
  obtain ⟨height, record⟩ := found
  obtain ⟨moment, hmoment, hblock⟩ := resolveBlock_found hfound
  refine failsIn_bind (pageContext_unbroken h codec pagination _ t₁) (fun page t₂ hle₂ _ => ?_)
  refine failsIn_bind (failsIn_liftExcept fun e he => ?_) (fun after t₃ hle₃ _ => ?_)
  · unfold blockTxsAfter at he
    split at he
    · cases he
    · split at he
      · cases he
      · cases he
        decide
  · refine failsIn_bind (failsIn_collect (fun index hindex t₄ hle₄ => ?_) (Nat.le_refl t₃))
      (fun _ _ _ _ => failsIn_pure _)
    have hlt : index < record.txCount := by
      have hmem := List.mem_of_mem_take hindex
      unfold blockTxsIndexes at hmem
      split at hmem
      · exact List.mem_range.mp (List.mem_filter.mp hmem).1
      · exact List.mem_range.mp (List.mem_reverse.mp (List.mem_filter.mp hmem).1)
    obtain ⟨r, hr⟩ := blockTx_stored h hcount hblock (show moment ≤ t₄ by omega) hlt
    apply failsIn_query
    rw [hr]
    exact failsIn_pure _

theorem txEvents_unbroken (libs : AddressLibs) (hash : String) (t : Nat) :
    Unbroken (txEvents libs hash) σ t := by
  refine failsIn_bind (txByHash_unbroken libs hash) (fun found t₁ _ hfound => ?_)
  obtain ⟨txId, record⟩ := found
  obtain ⟨moment, hmoment, htx⟩ := txByHash_found hfound
  refine failsIn_bind (failsIn_collect (fun eventId hevent t₂ hle₂ => ?_) (Nat.le_refl t₁))
    (fun _ t₃ _ _ => response_unbroken h _ t₃)
  obtain ⟨r, hr⟩ := txEvent_stored h hcount htx hevent
  apply failsIn_query
  rw [eventAt, h.event (show moment ≤ t₂ by omega) hr]
  exact eventResponse_unbroken h (show moment ≤ t₂ + 1 by omega) hr eventId

end Found

section Results

variable {σ : Nat → Store} {blocks : Nat → List DerivedBlock}

/-- The endpoints that look a record up by an id from another record or from an
index find it, at every moment and for every request. -/
structure Answered (σ : Nat → Store) : Prop where
  blockTxs : ∀ libs codec id pagination t, Unbroken (blockTxs libs codec id pagination) σ t
  txEvents : ∀ libs hash t, Unbroken (txEvents libs hash) σ t
  addressTxs : ∀ libs codec addr eventFrom pagination t,
    Unbroken (addressTxs libs codec addr eventFrom pagination) σ t
  contractActions : ∀ libs codec addr pagination t,
    Unbroken (contractActions libs codec addr pagination) σ t
  ledgerEvents : ∀ codec eventFrom pagination t, Unbroken (ledgerEvents codec eventFrom pagination) σ t
  contractEvents : ∀ libs codec addr eventFrom pagination t,
    Unbroken (contractEvents libs codec addr eventFrom pagination) σ t

theorem parseAddr32_error {libs : AddressLibs} {input : String} {e : ApiError}
    (h : parseAddr32 libs input = .error e) : e.statusCode = 400 := by
  rw [parseAddr32] at h
  split at h
  · split at h
    · cases h
    · cases h
      rfl
  · split at h
    · split at h
      · cases h
      · cases h
        rfl
    · cases h
      rfl

theorem parseContractAddr_error {libs : AddressLibs} {addr : String} {e : ApiError}
    (h : parseContractAddr libs addr = .error e) : e.statusCode = 400 := by
  rw [parseContractAddr] at h
  split at h
  · cases h
  · cases h
    rfl

theorem answered (h : Growing σ blocks) (hcount : ∀ t, ∀ d ∈ blocks t, CountsFit d) : Answered σ := by
  refine ⟨blockTxs_unbroken h hcount, txEvents_unbroken h hcount, ?_, ?_, ?_, ?_⟩
  · intro libs codec addr eventFrom pagination t
    refine failsIn_bind (failsIn_liftExcept fun e he => ?_) (fun owner t₁ _ _ => ?_)
    · rw [parseAddr32_error he]
      decide
    · exact request_unbroken h (fun t anchor e hget t' hle =>
        addressTx_unbroken h owner eventFrom anchor hget hle) codec pagination t₁
  · intro libs codec addr pagination t
    refine failsIn_bind (failsIn_liftExcept fun e he => ?_) (fun address t₁ _ _ => ?_)
    · rw [parseContractAddr_error he]
      decide
    · exact request_unbroken h (fun t anchor e hget t' hle =>
        contractActionRow_unbroken h address anchor hget hle) codec pagination t₁
  · intro codec eventFrom pagination t
    exact request_unbroken h (fun t anchor e hget t' hle =>
      ledgerEvent_unbroken h anchor hget hle) codec pagination t
  · intro libs codec addr eventFrom pagination t
    refine failsIn_bind (failsIn_liftExcept fun e he => ?_) (fun address t₁ _ _ => ?_)
    · rw [parseContractAddr_error he]
      decide
    · exact request_unbroken h (fun t anchor e hget t' hle =>
        contractEvent_unbroken h address eventFrom anchor hget hle) codec pagination t₁

/-- Whatever blocks a run has written, its ids are dense and its index entries
resolve, so that no request meets a missing record. -/
theorem run_dense (h : Growing σ blocks) (hcount : ∀ t, ∀ d ∈ blocks t, CountsFit d) :
    (∀ t, Dense (σ t) ∧ Resolves (σ t) ∧ BackReferences (σ t)) ∧ Answered σ := by
  refine ⟨fun t => ?_, answered h hcount⟩
  obtain ⟨ids, hrun⟩ := h.run t
  have hc := h.consecutive t
  exact ⟨Run.dense hrun hc (hcount t), Run.resolves hrun hc, Run.backReferences hrun hc (hcount t)⟩

theorem run_dense_pair : (∀ t, ∀ d ∈ pairBlocks t, CountsFit d) ∧
    (∀ t, Dense (pairMoments t) ∧ Resolves (pairMoments t) ∧ BackReferences (pairMoments t)) ∧
    Answered pairMoments ∧ nextId laterStore.1 nextTxIdKey = 3 ∧
      nextId laterStore.1 nextEventIdKey = 3 := by
  have hcount : ∀ t, ∀ d ∈ pairBlocks t, CountsFit d := by
    have hpair : CountsFit pairBlock := by simp [CountsFit, pairBlock, DustSync.dustTransaction,
      dustEvent, emptyTransaction]
    have hlater : CountsFit laterBlock := by simp [CountsFit, laterBlock, DustSync.dustTransaction,
      dustEvent, emptyTransaction]
    intro t d hd
    rw [pairBlocks] at hd
    split at hd
    · obtain rfl := List.mem_singleton.mp hd
      exact hpair
    · rcases List.mem_cons.mp hd with rfl | hd
      · exact hpair
      · obtain rfl := List.mem_singleton.mp hd
        exact hlater
  obtain ⟨hstores, hanswered⟩ := run_dense growing_pair hcount
  exact ⟨hcount, hstores, hanswered, by decide +kernel, by decide +kernel⟩

end Results

end Nightfrost.Lookups
