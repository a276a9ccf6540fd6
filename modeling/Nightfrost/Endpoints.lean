import Nightfrost.Listings
import Nightfrost.DustSync
import Nightfrost.Base64

namespace Nightfrost.Endpoints

open ByteOrder Tables Partitions Domain Schema WriteBlock MovingStore Api ExceptFold EntityLog
  BlockStep BlockRun Timeline Cursors Pages Listings

structure AddressLibs where
  bech32Decode : String → Option Bytes
  hexDecode : String → Option Bytes

def parseAddr32 (libs : AddressLibs) (input : String) : Except ApiError (ByteArr 32) :=
  match libs.bech32Decode input with
  | some data =>
      if h : data.length = 32 then .ok ⟨data, h⟩
      else .error (.badRequest "bech32 address must decode to 32 bytes")
  | none =>
      match libs.hexDecode input with
      | some bytes =>
          if h : bytes.length = 32 then .ok ⟨bytes, h⟩
          else .error (.badRequest "invalid address: expected hex or bech32m")
      | none => .error (.badRequest "invalid address: expected hex or bech32m")

structure BalanceResponse where
  tokenType : String
  amount : String
  deriving DecidableEq

def parseContractAddr (libs : AddressLibs) (addr : String) : Except ApiError Bytes :=
  match libs.hexDecode addr with
  | some bytes => .ok bytes
  | none => .error (.badRequest "invalid contract address (hex)")

structure EventFrom where
  fromId : Nat
  fromId_lt : fromId < 2 ^ 64

section AddressTxs

def addressTx (anchor : Option TipAnchor) (entry : Bytes × Unit) : Handler (RowStep (Nat × String)) := do
  let txId := keyU64Suffix entry.1
  match ← query (tx · txId) with
  | none => .fail (.internal "missing tx record")
  | some record =>
      if aboveAnchor anchor record.blockHeight then pure .skip
      else pure (.row (txId, hexEncode record.hash.val))

def addressListing (owner : ByteArr 32) (eventFrom : EventFrom) : Listing String where
  part := .addrTxs
  scopeParts := [utf8 "address_txs", owner.val, be 8 eventFrom.fromId]
  positionError := "invalid transaction cursor position"
  keyPrefix := owner.val
  start := some eventFrom.fromId
  rowOf := addressTx

def addressTxs (libs : AddressLibs) (codec : CursorCodec) (addr : String) (eventFrom : EventFrom)
    (pagination : Pagination) : Handler (ApiResponse (List String)) := do
  let owner ← liftExcept (parseAddr32 libs addr)
  (addressListing owner eventFrom).request codec pagination

end AddressTxs

section ContractActions

structure ContractActionResponse where
  id : Nat
  type : String
  entryPoint : Option String
  txHash : String
  blockHeight : Nat
  stateHash : Option String
  deriving DecidableEq

def actionType (record : ContractActionRecord) : String :=
  match record.attributes with
  | .deploy => "deploy"
  | .call _ => "call"
  | .update => "update"

def entryPointOf (record : ContractActionRecord) : Option String :=
  match record.attributes with
  | .call entryPoint => some entryPoint
  | _ => none

def contractActionResponse (actionId : Nat) (record : ContractActionRecord) (tx : TxRecord) :
    ContractActionResponse where
  id := actionId
  type := actionType record
  entryPoint := entryPointOf record
  txHash := hexEncode tx.hash.val
  blockHeight := record.blockHeight
  stateHash := record.stateHash.map (fun hash => hexEncode hash.val)

/-- A shorter address that is a byte-prefix of another would match its keys, so
only the exact ones are kept. -/
def contractActionRow (address : Bytes) (anchor : Option TipAnchor) (entry : Bytes × Unit) :
    Handler (RowStep (Nat × ContractActionResponse)) := do
  let actionId := keyU64Suffix entry.1
  match ← query (fun s => (s .contractActions)[be 8 actionId]?) with
  | none => .fail (.internal "missing contract action record")
  | some record =>
      if record.address ≠ address then pure .skip
      else if aboveAnchor anchor record.blockHeight then pure .skip
      else
        match ← query (tx · record.txId) with
        | none => .fail (.internal "missing tx record")
        | some tx => pure (.row (actionId, contractActionResponse actionId record tx))

def actionListing (address : Bytes) : Listing ContractActionResponse where
  part := .contractActionsByAddr
  scopeParts := [utf8 "contract_actions", address]
  positionError := "invalid contract action cursor position"
  keyPrefix := address
  start := none
  rowOf := contractActionRow address

def contractActions (libs : AddressLibs) (codec : CursorCodec) (addr : String)
    (pagination : Pagination) : Handler (ApiResponse (List ContractActionResponse)) := do
  let address ← liftExcept (parseContractAddr libs addr)
  (actionListing address).request codec pagination

end ContractActions

section LedgerEvents

def ledgerEvent (anchor : Option TipAnchor) (entry : Bytes × EventRecord) :
    Handler (RowStep (Nat × EventResponse)) := do
  let id := fromBe entry.1
  if aboveAnchor anchor entry.2.blockHeight then pure .skip
  else
    let event ← EventResponse.new id entry.2
    pure (.row (id, event))

/-- The keys of the table are the ids alone, with no bound above. -/
def eventListing (eventFrom : EventFrom) : Listing EventResponse where
  part := .ledgerEvents
  scopeParts := [utf8 "ledger_events", be 8 eventFrom.fromId]
  positionError := "invalid ledger event cursor position"
  keyPrefix := []
  start := some eventFrom.fromId
  rowOf := ledgerEvent

def ledgerEvents (codec : CursorCodec) (eventFrom : EventFrom) (pagination : Pagination) :
    Handler (ApiResponse (List EventResponse)) :=
  (eventListing eventFrom).request codec pagination

end LedgerEvents

section ContractEvents

structure ContractEventResponse where
  id : Nat
  grouping : LedgerEventGrouping
  attributes : LedgerEventAttributes
  raw : String
  txId : Nat
  txHash : String
  blockHeight : Nat
  contractAddress : String
  contractActionId : Option Nat
  deriving DecidableEq

def contractEventResponse (address : Bytes) (eventId : Nat) (record : EventRecord) (tx : TxRecord) :
    ContractEventResponse where
  id := eventId
  grouping := record.event.grouping
  attributes := record.event.attributes
  raw := hexEncode record.event.raw
  txId := record.txId
  txHash := hexEncode tx.hash.val
  blockHeight := record.blockHeight
  contractAddress := hexEncode address
  contractActionId := record.event.contractActionId

def contractEvent (address : Bytes) (anchor : Option TipAnchor) (entry : Bytes × Unit) :
    Handler (RowStep (Nat × ContractEventResponse)) := do
  if ¬ address.isPrefixOf entry.1 then pure .stop
  else
    let eventId := keyU64Suffix entry.1
    match ← query (fun s => (s .ledgerEvents)[be 8 eventId]?) with
    | none => .fail (.internal "missing event record")
    | some record =>
        if record.event.contractAddress ≠ some address then pure .skip
        else if aboveAnchor anchor record.blockHeight then pure .skip
        else
          match ← query (tx · record.txId) with
          | none => .fail (.internal "missing tx record")
          | some tx => pure (.row (eventId, contractEventResponse address eventId record tx))

def contractEventListing (address : Bytes) (eventFrom : EventFrom) : Listing ContractEventResponse where
  part := .eventsByContract
  scopeParts := [utf8 "contract_events", address, be 8 eventFrom.fromId]
  positionError := "invalid contract event cursor position"
  keyPrefix := address
  start := some eventFrom.fromId
  rowOf := contractEvent address

def contractEvents (libs : AddressLibs) (codec : CursorCodec) (addr : String) (eventFrom : EventFrom)
    (pagination : Pagination) : Handler (ApiResponse (List ContractEventResponse)) := do
  let address ← liftExcept (parseContractAddr libs addr)
  (contractEventListing address eventFrom).request codec pagination

end ContractEvents

section Indexes

variable {σ : Nat → Store} {blocks : Nat → List DerivedBlock} {Row V : Type}

/-- A log whose rows a listing serves through an index: the keys under which a
row is filed, and what is shown of it up to a height. -/
structure Source (V Row : Type) where
  entries : List DerivedBlock → List V
  filedUnder : V → List Bytes
  exact : V → Prop
  pick : List DerivedBlock → Nat → V → Nat → Option Row

def Source.shown (source : Source V Row) (l : Listing Row) (bs : List DerivedBlock) (height : Nat) :
    List (Nat × Row) :=
  select (source.entries bs) (fun v i =>
    if l.start.getD 0 ≤ i ∧ l.keyPrefix ∈ source.filedUnder v then source.pick bs height v i else none)

open Classical in
noncomputable def Source.seen (source : Source V Row) (l : Listing Row) (bs : List DerivedBlock)
    (height : Nat) (e : Bytes × l.part.Val) : Option (Nat × Row) :=
  (source.entries bs)[keyU64Suffix e.1]?.bind (fun v =>
    if source.exact v then (source.pick bs height v (keyU64Suffix e.1)).map (keyU64Suffix e.1, ·)
    else none)

structure Filed (source : Source V Row) (l : Listing Row) (σ : Nat → Store)
    (blocks : Nat → List DerivedBlock) : Prop where
  start_lt : ∀ i, l.start = some i → i < 2 ^ 64
  rows : ∀ t (k : Bytes), (∃ v, (σ t l.part)[k]? = some v) ↔ ∃ i w,
    (source.entries (blocks t))[i]? = some w ∧ ∃ p ∈ source.filedUnder w, k = prefixedU64Key p i
  bound : ∀ t, (source.entries (blocks t)).length ≤ 2 ^ 64
  exact : ∀ w p i, p ∈ source.filedUnder w → l.keyPrefix <+: prefixedU64Key p i →
    (source.exact w ↔ p = l.keyPrefix)
  grown : ∀ t t' height, t ≤ t' → height < (blocks t).length → ∃ new,
    source.entries (blocks t') = source.entries (blocks t) ++ new ∧
    (∀ w ∈ new, ∀ i, source.pick (blocks t') height w i = none) ∧
    ∀ i w, (source.entries (blocks t))[i]? = some w →
      source.pick (blocks t') height w i = source.pick (blocks t) height w i
  rowOf : ∀ t t' anchor (e : Bytes × l.part.Val) w, t ≤ t' → (σ t l.part)[e.1]? = some e.2 →
    l.keyPrefix <+: e.1 → (source.entries (blocks t))[keyU64Suffix e.1]? = some w →
    (∃ p, e.1 = prefixedU64Key p (keyU64Suffix e.1)) → ∃ row t'',
      (l.rowOf (some anchor) e).run σ t' = .ok (stepOf row, t'') ∧
      (source.exact w → row = (source.pick (blocks t) anchor.height w (keyU64Suffix e.1)).map
        (keyU64Suffix e.1, ·)) ∧
      (¬ source.exact w → row = none)

theorem Filed.entry {source : Source V Row} {l : Listing Row} (h : Filed source l σ blocks) (t : Nat)
    {e : Bytes × l.part.Val} (hget : (σ t l.part)[e.1]? = some e.2) : ∃ i w p,
      (source.entries (blocks t))[i]? = some w ∧ p ∈ source.filedUnder w ∧
        e.1 = prefixedU64Key p i ∧ keyU64Suffix e.1 = i ∧ i < 2 ^ 64 := by
  obtain ⟨i, w, hw, p, hp, hk⟩ := (h.rows t e.1).mp ⟨_, hget⟩
  have hlt : i < 2 ^ 64 :=
    Nat.lt_of_lt_of_le (List.getElem?_eq_some_iff.mp hw).1 (h.bound t)
  exact ⟨i, w, p, hw, hp, hk, by rw [hk, prefixedU64Key_suffix p hlt], hlt⟩

theorem Filed.serves {source : Source V Row} {l : Listing Row} (h : Filed source l σ blocks) :
    Serves l σ blocks (source.seen l) (source.shown l) := by
  have hseen : ∀ t height (e : Bytes × l.part.Val) row, (σ t l.part)[e.1]? = some e.2 →
      l.keyPrefix <+: e.1 → (source.seen l (blocks t) height e = some row ↔ ∃ w,
        (source.entries (blocks t))[row.1]? = some w ∧ l.keyPrefix ∈ source.filedUnder w ∧
          e.1 = prefixedU64Key l.keyPrefix row.1 ∧ row.1 < 2 ^ 64 ∧
          source.pick (blocks t) height w row.1 = some row.2) := by
    intro t height e row hget hunder
    obtain ⟨i, w, p, hw, hp, hk, hsuffix, hlt⟩ := h.entry t hget
    rw [hk] at hunder
    have hexact := h.exact w p i hp hunder
    rw [Source.seen, hsuffix, hw, Option.bind_some]
    constructor
    · intro hrow
      split at hrow
      · rename_i he
        obtain rfl := hexact.mp he
        obtain ⟨r, hpick, rfl⟩ := Option.map_eq_some_iff.mp hrow
        exact ⟨w, hw, hp, hk, hlt, hpick⟩
      · cases hrow
    · rintro ⟨w', hw', hp', hk', hlt', hpick⟩
      obtain ⟨rfl, rfl⟩ := prefixedU64Key_injective hlt hlt' (hk.symm.trans hk')
      obtain rfl := Option.some.inj (hw.symm.trans hw')
      rw [if_pos (hexact.mpr rfl), hpick]
      rfl
  refine ⟨h.start_lt, fun bs height => select_sorted _ _, ?_, ?_, ?_, ?_⟩
  · intro t t' height hle hheight
    obtain ⟨new, hnew, hnone, hold⟩ := h.grown t t' height hle hheight
    rw [Source.shown, Source.shown, hnew]
    refine select_grown (fun i v hv => ?_) (fun v hv i => ?_)
    · rw [hold i v hv]
    · rw [hnone v hv i, ite_self]
  · intro t height e row hget hunder hrow
    obtain ⟨w, -, -, hk, hlt, -⟩ := (hseen t height e row hget hunder).mp hrow
    exact ⟨hk, hlt⟩
  · intro t height row
    rw [Source.shown, mem_select]
    constructor
    · rintro ⟨w, hw, hpick⟩
      split at hpick
      · rename_i hcond
        obtain ⟨v, hget⟩ := (h.rows t (prefixedU64Key l.keyPrefix row.1)).mpr
          ⟨row.1, w, hw, l.keyPrefix, hcond.2, rfl⟩
        have hlt : row.1 < 2 ^ 64 :=
          Nat.lt_of_lt_of_le (List.getElem?_eq_some_iff.mp hw).1 (h.bound t)
        have hunder : l.keyPrefix <+: prefixedU64Key l.keyPrefix row.1 := List.prefix_append _ _
        exact ⟨hcond.1, (prefixedU64Key l.keyPrefix row.1, v), hget, hunder,
          (hseen t height (prefixedU64Key l.keyPrefix row.1, v) row hget hunder).mpr
            ⟨w, hw, hcond.2, rfl, hlt, hpick⟩⟩
      · cases hpick
    · rintro ⟨hstart, e, hget, hunder, hrow⟩
      obtain ⟨w, hw, hp, -, -, hpick⟩ := (hseen t height e row hget hunder).mp hrow
      exact ⟨w, hw, by rw [if_pos ⟨hstart, hp⟩]; exact hpick⟩
  · intro t t' anchor e hle hget hunder
    obtain ⟨i, w, p, hw, hp, hk, hsuffix, hlt⟩ := h.entry t hget
    obtain ⟨row, t'', hrun, hyes, hno⟩ := h.rowOf t t' anchor e w hle hget hunder
      (by rw [hsuffix]; exact hw) ⟨p, by rw [hsuffix]; exact hk⟩
    refine ⟨t'', ?_⟩
    rw [hrun, Source.seen, hsuffix, hw, Option.bind_some]
    by_cases he : source.exact w
    · rw [if_pos he, hyes he, hsuffix]
    · rw [if_neg he, hno he]

end Indexes

section Sources

variable {σ : Nat → Store} {blocks : Nat → List DerivedBlock}

def upTo {Row : Type} (height blockHeight : Nat) (row : Option Row) : Option Row :=
  if blockHeight ≤ height then row else none

def addressSource : Source TxRecord String where
  entries bs := (logOf bs).txs
  filedUnder record := (owners record.createdUtxos record.spentUtxos).map Subtype.val
  exact _ := True
  pick _ height record _ := upTo height record.blockHeight (some (hexEncode record.hash.val))

def actionSource (address : Bytes) : Source ContractActionRecord ContractActionResponse where
  entries bs := (logOf bs).actions
  filedUnder record := [record.address]
  exact record := record.address = address
  pick bs height record actionId := upTo height record.blockHeight
    (((logOf bs).txs[record.txId]?).map (contractActionResponse actionId record))

def eventSource : Source EventRecord EventResponse where
  entries bs := (logOf bs).events
  filedUnder _ := [[]]
  exact _ := True
  pick bs height record id := upTo height record.blockHeight
    (((logOf bs).blocks[record.blockHeight]?).map (EventResponse.of id record))

def contractEventSource (address : Bytes) : Source EventRecord ContractEventResponse where
  entries bs := (logOf bs).events
  filedUnder record := record.event.contractAddress.toList
  exact record := record.event.contractAddress = some address
  pick bs height record eventId := upTo height record.blockHeight
    (((logOf bs).txs[record.txId]?).map (contractEventResponse address eventId record))

theorem upTo_of_not_aboveAnchor {Row : Type} {anchor : TipAnchor} {blockHeight : Nat}
    {row : Option Row} (h : ¬ aboveAnchor (some anchor) blockHeight = true) :
    upTo anchor.height blockHeight row = row := by
  have hle : blockHeight ≤ anchor.height := by simpa [aboveAnchor] using h
  exact if_pos hle

theorem upTo_of_aboveAnchor {Row : Type} {anchor : TipAnchor} {blockHeight : Nat}
    {row : Option Row} (h : aboveAnchor (some anchor) blockHeight = true) :
    upTo anchor.height blockHeight row = none := by
  have hlt : anchor.height < blockHeight := by simpa [aboveAnchor] using h
  exact if_neg (Nat.not_le.mpr hlt)

theorem upTo_above {Row : Type} {height blockHeight n : Nat} {row : Option Row} (hheight : height < n)
    (hle : n ≤ blockHeight) : upTo height blockHeight row = none :=
  if_neg (by omega)

theorem index_rows {V : Type} {t : Table Unit} {entries : List V} {filedUnder : V → List Bytes}
    {keys : V → Nat → List Bytes} (h : IndexOf t entries keys)
    (hkeys : ∀ v i, keys v i = (filedUnder v).map (fun p => prefixedU64Key p i)) (k : Bytes) :
    (∃ v, t[k]? = some v) ↔ ∃ i w, entries[i]? = some w ∧ ∃ p ∈ filedUnder w, k = prefixedU64Key p i := by
  rw [← mem_iff]
  refine (h k).trans ?_
  constructor
  · rintro ⟨i, v, hget, hk⟩
    rw [hkeys] at hk
    obtain ⟨p, hp, rfl⟩ := List.mem_map.mp hk
    exact ⟨i, v, hget, p, hp, rfl⟩
  · rintro ⟨i, v, hget, p, hp, rfl⟩
    exact ⟨i, v, hget, by rw [hkeys]; exact List.mem_map_of_mem hp⟩

variable {t t' : Nat} (h : Growing σ blocks)

include h

/-- What the endpoint makes of an entry is what the log says of its row, at any
later moment. -/
theorem addressTx_run (hle : t ≤ t') (anchor : TipAnchor) {entry : Bytes × Unit} {record : TxRecord}
    (hget : (logOf (blocks t)).txs[keyU64Suffix entry.1]? = some record) : ∃ t'',
    (addressTx (some anchor) entry).run σ t' = .ok (stepOf ((upTo anchor.height record.blockHeight
      (some (hexEncode record.hash.val))).map (keyU64Suffix entry.1, ·)), t'') := by
  rw [addressTx, run_bind, run_query]
  change ∃ t'', (match Schema.tx (σ t') (keyU64Suffix entry.1) with
    | none => _
    | some record => _ : Handler _).run σ (t' + 1) = _
  rw [h.tx hle hget]
  change ∃ t'', (if aboveAnchor (some anchor) record.blockHeight then _ else _ :
    Handler _).run σ (t' + 1) = _
  split
  · rename_i habove
    rw [upTo_of_aboveAnchor habove]
    exact ⟨_, rfl⟩
  · rename_i habove
    rw [upTo_of_not_aboveAnchor habove]
    exact ⟨_, rfl⟩

theorem addressListing_filed (owner : ByteArr 32) (eventFrom : EventFrom) :
    Filed addressSource (addressListing owner eventFrom) σ blocks := by
  refine ⟨?_, ?_, ?_, ?_, ?_, ?_⟩
  · intro i hi
    obtain rfl := Option.some.inj hi
    exact eventFrom.fromId_lt
  · intro t k
    obtain ⟨ids, hrun⟩ := h.run t
    refine index_rows hrun.holds.addrTxs (fun record i => ?_) k
    rw [addressKeys, addressSource, List.map_map]
    rfl
  · intro t
    obtain ⟨ids, hrun⟩ := h.run t
    exact hrun.holds.tables.txs.records.bound
  · -- the owners all have the length of the prefix
    intro record p i hp hunder
    obtain ⟨owner', -, rfl⟩ := List.mem_map.mp hp
    apply iff_of_true trivial
    obtain ⟨rest, hrest⟩ := hunder
    exact (List.append_inj hrest (by rw [owner'.property]; exact owner.property)).1.symm
  · intro t t' height hle hheight
    obtain ⟨new, hnew, hheights⟩ := (h.grown hle).txs
    exact ⟨new, hnew, fun record hr _ => upTo_above hheight (hheights record hr), fun _ _ _ => rfl⟩
  · intro t t' anchor e record hle _ _ hrecord _
    obtain ⟨t'', hrun⟩ := addressTx_run h hle anchor  hrecord
    exact ⟨_, t'', hrun, fun _ => rfl, fun hno => absurd trivial hno⟩

theorem contractActionRow_run (hle : t ≤ t') (address : Bytes) (anchor : TipAnchor)
    {entry : Bytes × Unit} {record : ContractActionRecord}
    (hget : (logOf (blocks t)).actions[keyU64Suffix entry.1]? = some record) : ∃ row t'',
    (contractActionRow address (some anchor) entry).run σ t' = .ok (stepOf row, t'') ∧
      (record.address = address → row = (upTo anchor.height record.blockHeight
        (((logOf (blocks t)).txs[record.txId]?).map
          (contractActionResponse (keyU64Suffix entry.1) record))).map (keyU64Suffix entry.1, ·)) ∧
      (record.address ≠ address → row = none) := by
  have hlt := (logOf_owned (blocks t)).actions record (List.mem_of_getElem? hget)
  have htx := List.getElem?_eq_getElem hlt
  rw [contractActionRow, run_bind, run_query]
  change ∃ row t'', (match ((σ t') .contractActions)[be 8 (keyU64Suffix entry.1)]? with
    | none => _
    | some record => _ : Handler _).run σ (t' + 1) = _ ∧ _
  rw [h.action hle hget]
  change ∃ row t'', (if record.address ≠ address then _ else _ :
    Handler _).run σ (t' + 1) = _ ∧ _
  split
  · rename_i hother
    exact ⟨none, _, rfl, fun he => absurd he hother, fun _ => rfl⟩
  · rename_i hsame
    split
    · rename_i habove
      rw [upTo_of_aboveAnchor habove]
      exact ⟨none, _, rfl, fun _ => rfl, fun _ => rfl⟩
    · rename_i habove
      rw [run_bind, run_query]
      change ∃ row t'', (match Schema.tx (σ (t' + 1)) record.txId with
        | none => _
        | some tx => _ : Handler _).run σ (t' + 1 + 1) = _ ∧ _
      rw [h.tx (Nat.le_succ_of_le hle) htx, upTo_of_not_aboveAnchor habove, htx]
      exact ⟨some _, _, rfl, fun _ => rfl, fun hno => absurd (not_not.mp hsame) hno⟩

theorem actionListing_filed (address : Bytes) :
    Filed (actionSource address) (actionListing address) σ blocks := by
  refine ⟨?_, ?_, ?_, ?_, ?_, ?_⟩
  · intro i hi
    cases hi
  · intro t k
    obtain ⟨ids, hrun⟩ := h.run t
    exact index_rows hrun.holds.tables.actions.byAddr (fun record i => rfl) k
  · intro t
    obtain ⟨ids, hrun⟩ := h.run t
    exact hrun.holds.tables.actions.records.bound
  · intro record p i hp _
    rw [List.mem_singleton.mp hp]
    rfl
  · intro t t' height hle hheight
    obtain ⟨new, hnew, hheights⟩ := (h.grown hle).actions
    refine ⟨new, hnew, fun record hr _ => upTo_above hheight (hheights record hr), ?_⟩
    intro i record hget
    have hlt := (logOf_owned (blocks t)).actions record (List.mem_of_getElem? hget)
    show upTo _ _ (Option.map _ _) = upTo _ _ (Option.map _ _)
    rw [txs_later h hle hlt]
  · intro t t' anchor e record hle _ _ hrecord _
    exact contractActionRow_run h hle address anchor  hrecord

theorem ledgerEvent_run (hle : t ≤ t') (anchor : TipAnchor) {id : Nat} {record : EventRecord}
    (hget : (logOf (blocks t)).events[id]? = some record) : ∃ t'',
    (ledgerEvent (some anchor) (be 8 id, record)).run σ t' = .ok (stepOf ((upTo anchor.height
      record.blockHeight (((logOf (blocks t)).blocks[record.blockHeight]?).map
        (EventResponse.of id record))).map (id, ·)), t'') := by
  obtain ⟨ids, hrun⟩ := h.run t
  have hbound := hrun.holds.tables.events.records.bound
  have hlen := (List.getElem?_eq_some_iff.mp hget).1
  obtain ⟨block, hblock, hevent⟩ := h.eventResponse hle hget
  rw [ledgerEvent, fromBe_be (show id < 256 ^ 8 by omega)]
  change ∃ t'', (if aboveAnchor (some anchor) record.blockHeight then _ else _ :
    Handler _).run σ t' = _
  split
  · rename_i habove
    rw [upTo_of_aboveAnchor habove]
    exact ⟨_, rfl⟩
  · rename_i habove
    rw [run_bind, hevent, upTo_of_not_aboveAnchor habove, hblock]
    exact ⟨_, rfl⟩

theorem eventListing_filed (eventFrom : EventFrom) :
    Filed eventSource (eventListing eventFrom) σ blocks := by
  refine ⟨?_, ?_, ?_, ?_, ?_, ?_⟩
  · intro i hi
    obtain rfl := Option.some.inj hi
    exact eventFrom.fromId_lt
  · intro t k
    obtain ⟨ids, hrun⟩ := h.run t
    have hrecords := hrun.holds.tables.events.records
    constructor
    · rintro ⟨record, hget⟩
      obtain ⟨i, hi, rfl⟩ := hrecords.get_iff.mp hget
      exact ⟨i, record, hi, [], List.mem_singleton.mpr rfl, rfl⟩
    · rintro ⟨i, record, hi, p, hp, rfl⟩
      obtain rfl := List.mem_singleton.mp hp
      exact ⟨record, hrecords.get_iff.mpr ⟨i, hi, rfl⟩⟩
  · intro t
    obtain ⟨ids, hrun⟩ := h.run t
    exact hrun.holds.tables.events.records.bound
  · intro record p i hp _
    exact iff_of_true trivial (List.mem_singleton.mp hp)
  · intro t t' height hle hheight
    obtain ⟨new, hnew, hheights⟩ := (h.grown hle).events
    refine ⟨new, hnew, fun record hr _ => upTo_above hheight (hheights record hr), ?_⟩
    intro i record hget
    show upTo _ _ (Option.map _ _) = upTo _ _ (Option.map _ _)
    rw [blocks_later h hle (h.event_height hget)]
  · intro t t' anchor e record hle hget _ hrecord _
    obtain ⟨ids, hrun⟩ := h.run t
    obtain ⟨i, hi, hbe⟩ := hrun.holds.tables.events.records.get_iff.mp hget
    have hbound := hrun.holds.tables.events.records.bound
    have hlt := (List.getElem?_eq_some_iff.mp hi).1
    have hsuffix : keyU64Suffix e.1 = i := by
      rw [hbe]
      exact prefixedU64Key_suffix [] (by omega)
    change (logOf (blocks t)).events[keyU64Suffix e.1]? = some record at hrecord
    rw [hsuffix, hi] at hrecord
    have hvalue : e.2 = record := Option.some.inj hrecord
    obtain ⟨t'', hstep⟩ := ledgerEvent_run h hle anchor hi
    rw [← hbe] at hstep
    refine ⟨_, t'', hstep, fun _ => ?_, fun hno => absurd trivial hno⟩
    rw [hsuffix, ← hvalue]
    rfl

theorem contractEvent_run (hle : t ≤ t') (address : Bytes) (anchor : TipAnchor)
    {entry : Bytes × Unit} {record : EventRecord} (hunder : address <+: entry.1)
    (hget : (logOf (blocks t)).events[keyU64Suffix entry.1]? = some record) : ∃ row t'',
    (contractEvent address (some anchor) entry).run σ t' = .ok (stepOf row, t'') ∧
      (record.event.contractAddress = some address → row = (upTo anchor.height record.blockHeight
        (((logOf (blocks t)).txs[record.txId]?).map
          (contractEventResponse address (keyU64Suffix entry.1) record))).map
            (keyU64Suffix entry.1, ·)) ∧
      (record.event.contractAddress ≠ some address → row = none) := by
  have hlt := (logOf_owned (blocks t)).events record (List.mem_of_getElem? hget)
  have htx := List.getElem?_eq_getElem hlt
  have hstart : ¬ ¬ address.isPrefixOf entry.1 = true :=
    not_not.mpr (List.isPrefixOf_iff_prefix.mpr hunder)
  rw [contractEvent, if_neg hstart, run_bind, run_query]
  change ∃ row t'', (match ((σ t') .ledgerEvents)[be 8 (keyU64Suffix entry.1)]? with
    | none => _
    | some record => _ : Handler _).run σ (t' + 1) = _ ∧ _
  rw [h.event hle hget]
  change ∃ row t'', (if record.event.contractAddress ≠ some address then _ else _ :
    Handler _).run σ (t' + 1) = _ ∧ _
  split
  · rename_i hother
    exact ⟨none, _, rfl, fun he => absurd he hother, fun _ => rfl⟩
  · rename_i hsame
    split
    · rename_i habove
      rw [upTo_of_aboveAnchor habove]
      exact ⟨none, _, rfl, fun _ => rfl, fun _ => rfl⟩
    · rename_i habove
      rw [run_bind, run_query]
      change ∃ row t'', (match Schema.tx (σ (t' + 1)) record.txId with
        | none => _
        | some tx => _ : Handler _).run σ (t' + 1 + 1) = _ ∧ _
      rw [h.tx (Nat.le_succ_of_le hle) htx, upTo_of_not_aboveAnchor habove, htx]
      exact ⟨some _, _, rfl, fun _ => rfl, fun hno => absurd (not_not.mp hsame) hno⟩

theorem contractEventListing_filed (address : Bytes) (eventFrom : EventFrom) :
    Filed (contractEventSource address) (contractEventListing address eventFrom) σ blocks := by
  refine ⟨?_, ?_, ?_, ?_, ?_, ?_⟩
  · intro i hi
    obtain rfl := Option.some.inj hi
    exact eventFrom.fromId_lt
  · intro t k
    obtain ⟨ids, hrun⟩ := h.run t
    exact index_rows hrun.holds.tables.events.byContract (fun record i => rfl) k
  · intro t
    obtain ⟨ids, hrun⟩ := h.run t
    exact hrun.holds.tables.events.records.bound
  · intro record p i hp _
    have he : record.event.contractAddress = some p := Option.mem_toList.mp hp
    show record.event.contractAddress = some address ↔ p = address
    rw [he, Option.some_inj]
  · intro t t' height hle hheight
    obtain ⟨new, hnew, hheights⟩ := (h.grown hle).events
    refine ⟨new, hnew, fun record hr _ => upTo_above hheight (hheights record hr), ?_⟩
    intro i record hget
    have hlt := (logOf_owned (blocks t)).events record (List.mem_of_getElem? hget)
    show upTo _ _ (Option.map _ _) = upTo _ _ (Option.map _ _)
    rw [txs_later h hle hlt]
  · intro t t' anchor e record hle _ hunder hrecord _
    exact contractEvent_run h hle address anchor  hunder hrecord

end Sources

section Results

def addressRows (owner : ByteArr 32) (fromId : Nat) (bs : List DerivedBlock) (height : Nat) :
    List (Nat × String) :=
  select (logOf bs).txs (fun record txId =>
    if fromId ≤ txId ∧ owner ∈ owners record.createdUtxos record.spentUtxos then
      upTo height record.blockHeight (some (hexEncode record.hash.val))
    else none)

def contractActionRows (address : Bytes) (bs : List DerivedBlock) (height : Nat) :
    List (Nat × ContractActionResponse) :=
  select (logOf bs).actions (fun record actionId =>
    if record.address = address then
      upTo height record.blockHeight
        (((logOf bs).txs[record.txId]?).map (contractActionResponse actionId record))
    else none)

def ledgerEventRows (fromId : Nat) (bs : List DerivedBlock) (height : Nat) :
    List (Nat × EventResponse) :=
  select (logOf bs).events (fun record id =>
    if fromId ≤ id then
      upTo height record.blockHeight
        (((logOf bs).blocks[record.blockHeight]?).map (EventResponse.of id record))
    else none)

def contractEventRows (address : Bytes) (fromId : Nat) (bs : List DerivedBlock) (height : Nat) :
    List (Nat × ContractEventResponse) :=
  select (logOf bs).events (fun record eventId =>
    if fromId ≤ eventId ∧ record.event.contractAddress = some address then
      upTo height record.blockHeight
        (((logOf bs).txs[record.txId]?).map (contractEventResponse address eventId record))
    else none)

theorem addressRows_eq (owner : ByteArr 32) (eventFrom : EventFrom) :
    addressSource.shown (addressListing owner eventFrom) = addressRows owner eventFrom.fromId := by
  funext bs height
  refine congrArg (select _) (funext fun record => funext fun txId => if_congr ?_ rfl rfl)
  refine and_congr_right fun _ => ?_
  show owner.val ∈ (owners record.createdUtxos record.spentUtxos).map Subtype.val ↔ _
  exact List.mem_map_of_injective Subtype.val_injective

theorem contractActionRows_eq (address : Bytes) :
    (actionSource address).shown (actionListing address) = contractActionRows address := by
  funext bs height
  refine congrArg (select _) (funext fun record => funext fun actionId => if_congr ?_ rfl rfl)
  show 0 ≤ actionId ∧ address ∈ [record.address] ↔ _
  rw [and_iff_right (Nat.zero_le _), List.mem_singleton]
  exact eq_comm

theorem ledgerEventRows_eq (eventFrom : EventFrom) :
    eventSource.shown (eventListing eventFrom) = ledgerEventRows eventFrom.fromId := by
  funext bs height
  refine congrArg (select _) (funext fun record => funext fun id => if_congr ?_ rfl rfl)
  exact and_iff_left (List.mem_singleton.mpr rfl)

theorem contractEventRows_eq (address : Bytes) (eventFrom : EventFrom) :
    (contractEventSource address).shown (contractEventListing address eventFrom) =
      contractEventRows address eventFrom.fromId := by
  funext bs height
  refine congrArg (select _) (funext fun record => funext fun eventId => if_congr ?_ rfl rfl)
  exact and_congr_right fun _ => Option.mem_toList

variable {σ : Nat → Store} {blocks : Nat → List DerivedBlock} {codec : CursorCodec}

/-- The pages of each listing hold exactly the rows up to the anchor, whatever
the indexer commits meanwhile. -/
theorem listings_exact (hl : codec.Lawful) (h : Growing σ blocks) (libs : AddressLibs)
    (eventFrom : EventFrom) :
    (∀ addr owner, parseAddr32 libs addr = .ok owner →
      Exact σ blocks (addressTxs libs codec addr eventFrom) (addressRows owner eventFrom.fromId)) ∧
    (∀ addr address, parseContractAddr libs addr = .ok address →
      Exact σ blocks (contractActions libs codec addr) (contractActionRows address)) ∧
    Exact σ blocks (ledgerEvents codec eventFrom) (ledgerEventRows eventFrom.fromId) ∧
    (∀ addr address, parseContractAddr libs addr = .ok address →
      Exact σ blocks (contractEvents libs codec addr eventFrom)
        (contractEventRows address eventFrom.fromId)) := by
  refine ⟨fun addr owner hparse => ?_, fun addr address hparse => ?_, ?_,
    fun addr address hparse => ?_⟩
  · have hendpoint : addressTxs libs codec addr eventFrom =
        (addressListing owner eventFrom).request codec := by
      funext pagination
      rw [addressTxs, hparse]
      rfl
    rw [hendpoint, ← addressRows_eq]
    exact (addressListing_filed h owner eventFrom).serves.exact hl h
  · have hendpoint : contractActions libs codec addr = (actionListing address).request codec := by
      funext pagination
      rw [contractActions, hparse]
      rfl
    rw [hendpoint, ← contractActionRows_eq]
    exact (actionListing_filed h address).serves.exact hl h
  · rw [← ledgerEventRows_eq]
    exact (eventListing_filed h eventFrom).serves.exact hl h
  · have hendpoint : contractEvents libs codec addr eventFrom =
        (contractEventListing address eventFrom).request codec := by
      funext pagination
      rw [contractEvents, hparse]
      rfl
    rw [hendpoint, ← contractEventRows_eq]
    exact (contractEventListing_filed h address eventFrom).serves.exact hl h

end Results

section Samples

open DustSync

def hexValue (c : Char) : Option Nat := "0123456789abcdef".toList.idxOf? c.toLower

def hexDecode : List Char → Option Bytes
  | c :: d :: rest => do
      let high ← hexValue c
      let low ← hexValue d
      return UInt8.ofNat (high * 16 + low) :: (← hexDecode rest)
  | [_] => none
  | [] => some []

def hexLibs : AddressLibs where
  bech32Decode _ := none
  hexDecode input := hexDecode input.toList

def scopeHash : ByteArr 32 :=
  ⟨[0xe4, 0xea, 0x53, 0x34, 0xd5, 0xa7, 0x25, 0x48, 0xf4, 0x81, 0x26, 0x0a, 0x67, 0x90, 0x9d, 0x75,
    0x74, 0xd6, 0x56, 0xef, 0xbd, 0x39, 0x6f, 0xc2, 0xab, 0xd0, 0x1c, 0x5c, 0xd7, 0x87, 0x62, 0x36],
    rfl⟩

def cursorMac : ByteArr 32 :=
  ⟨[0x00, 0xfa, 0x16, 0x13, 0x18, 0x66, 0xb1, 0x95, 0x7f, 0x63, 0xb6, 0x08, 0x37, 0x5f, 0x7f, 0x40,
    0xd1, 0x55, 0x73, 0x97, 0x1f, 0x18, 0xc3, 0xee, 0x10, 0x20, 0x16, 0xe8, 0xd2, 0xde, 0x81, 0xd5],
    rfl⟩

def sampleCodec : CursorCodec where
  key := List.replicate 32 0
  sha256 _ := scopeHash
  hmacSha256 _ _ := cursorMac
  base64Encode := Base64.encode
  base64Decode := Base64.decode

theorem sampleCodec_lawful : sampleCodec.Lawful := ⟨Base64.decode_encode, Base64.encode_size⟩

def pairBlock : DerivedBlock :=
  ⟨emptyBlock 0 zero_lt_u64, [dustTransaction, dustTransaction],
    by simp [Derived, dustTransaction, emptyTransaction]⟩

def laterBlock : DerivedBlock :=
  ⟨emptyBlock 1 one_lt_u64, [dustTransaction], by simp [Derived, dustTransaction, emptyTransaction]⟩

def pairStore : Store × Counters :=
  (writeBlock fresh pairBlock.block pairBlock.transactions [] []
    (Counters.load fresh)).toOption.getD (fresh, Counters.load fresh)

def laterStore : Store × Counters :=
  (writeBlock pairStore.1 laterBlock.block laterBlock.transactions [] []
    pairStore.2).toOption.getD (fresh, Counters.load fresh)

theorem run_pairStore : Run [pairBlock] pairStore.1 pairStore.2 :=
  Run.start.step pairBlock [] [] (by decide +kernel) (ok_of_toBool (by decide +kernel) (fresh, Counters.load fresh))

theorem run_laterStore : Run [pairBlock, laterBlock] laterStore.1 laterStore.2 :=
  run_pairStore.step laterBlock [] [] (by decide +kernel) (ok_of_toBool (by decide +kernel) (fresh, Counters.load fresh))

def pairMoments (t : Nat) : Store := if t < 2 then pairStore.1 else laterStore.1

def pairBlocks (t : Nat) : List DerivedBlock := if t < 2 then [pairBlock] else [pairBlock, laterBlock]

/-- The second block lands between the tip read of the first request and its scan. -/
theorem growing_pair : Growing pairMoments pairBlocks := by
  refine growing_once run_pairStore run_laterStore ?_ 2
  intro i d hd
  match i with
  | 0 => cases hd; rfl
  | 1 => cases hd; rfl
  | i + 2 => cases hd

theorem walk_pair {Row : Type} {endpoint : Pagination → Handler (ApiResponse (List Row))}
    {shown : List DerivedBlock → Nat → List (Nat × Row)} (h : Exact pairMoments pairBlocks endpoint shown) :
    ∃ pages, Walk pairMoments (fun cursor => endpoint ⟨1, .desc, cursor, none⟩) (fun _ => 1) 0 none pages ∧
      pages.flatMap ApiResponse.results = ((shown [pairBlock] 0).reverse).map Prod.snd := by
  obtain ⟨anchor, pages, ha, hw, -, -, hrows⟩ := h 1 .desc (fun _ => 1) 0 (by decide) (by simp [pairBlocks])
  have hzero : anchor.height = 0 := Nat.succ.inj ha.height
  refine ⟨pages, hw, ?_⟩
  rw [hrows 0 (Nat.le_refl 0), hzero]
  rfl

/-- The two events of the first block in two pages, and nothing of the second. -/
theorem listings_exact_sample :
    (∃ pages, Walk pairMoments (fun cursor => ledgerEvents sampleCodec ⟨0, zero_lt_u64⟩
        ⟨1, .desc, cursor, none⟩) (fun _ => 1) 0 none pages ∧
      (pages.flatMap ApiResponse.results).map EventResponse.id = [1, 0]) ∧
    (∃ pages, Walk pairMoments (fun cursor => contractActions hexLibs sampleCodec "c0ffee"
        ⟨1, .desc, cursor, none⟩) (fun _ => 1) 0 none pages ∧
      pages.flatMap ApiResponse.results = []) := by
  obtain ⟨-, hactions, hevents, -⟩ :=
    listings_exact sampleCodec_lawful growing_pair hexLibs ⟨0, zero_lt_u64⟩
  obtain ⟨pages, hw, hrows⟩ := walk_pair hevents
  obtain ⟨pages', hw', hrows'⟩ := walk_pair (hactions "c0ffee"
    ((parseContractAddr hexLibs "c0ffee").toOption.getD []) (ok_of_toBool (by decide +kernel) _))
  refine ⟨⟨pages, hw, ?_⟩, pages', hw', ?_⟩
  · rw [hrows]
    decide +kernel
  · rw [hrows']
    decide +kernel

end Samples

end Nightfrost.Endpoints
