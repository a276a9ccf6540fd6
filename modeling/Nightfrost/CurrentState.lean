import Nightfrost.KeyedListings
import Nightfrost.Endpoints
import Nightfrost.UtxoSet
import Nightfrost.Registrations

namespace Nightfrost.CurrentState

open ByteOrder Tables Partitions Domain Schema WriteBlock Staging MovingStore Api ExceptFold EntityLog
  BlockStep BlockRun CoinHistory UtxoSet Timeline Cursors PagedWalks Listings KeyedListings Endpoints Registrations

section AddressUtxos

structure UtxoResponse where
  owner : String
  tokenType : String
  value : String
  intentHash : String
  outputIndex : Nat
  ctime : Option Nat
  registeredForDustGeneration : Bool
  deriving DecidableEq

def UtxoResponse.from (utxo : UnshieldedUtxo) : UtxoResponse where
  owner := hexEncode utxo.owner.val
  tokenType := hexEncode utxo.tokenType.val
  value := toString utxo.value
  intentHash := hexEncode utxo.intentHash.val
  outputIndex := utxo.outputIndex
  ctime := utxo.ctime
  registeredForDustGeneration := utxo.registeredForDustGeneration

def parseTokenType (libs : AddressLibs) (tokenType : String) : Except ApiError (ByteArr 32) :=
  match libs.hexDecode tokenType with
  | some bytes =>
      if h : bytes.length = 32 then .ok ⟨bytes, h⟩ else .error (.badRequest "invalid token_type")
  | none => .error (.badRequest "invalid token_type")

def unspentUtxo (entry : Bytes × Bytes) : Handler UtxoResponse := do
  match ← query (fun s => (s .utxos)[entry.2]?) with
  | none => .fail (.internal "missing utxo record")
  | some record => pure (.from record.utxo)

/-- A cursor keeps the key without its owner. -/
def utxoListing (owner : ByteArr 32) (token : Bytes) (tokenType : String) : KeyedListing UtxoResponse where
  part := .utxosUnspentByOwner
  scopeParts := [utf8 "address_utxos", owner.val, utf8 tokenType]
  keyPrefix := owner.val ++ token
  implied := owner.val
  positionLen := some 68
  positionError := "invalid UTXO cursor position"
  rowOf := unspentUtxo

def addressUtxosInner (libs : AddressLibs) (codec : CursorCodec) (addr : String) (tokenType : Option String)
    (pagination : Pagination) : Handler (ApiResponse (List UtxoResponse)) := do
  let owner ← liftExcept (parseAddr32 libs addr)
  match tokenType with
  | none => (utxoListing owner [] "").request codec pagination
  | some tokenType =>
      let token ← liftExcept (parseTokenType libs tokenType)
      (utxoListing owner token.val tokenType).request codec pagination

def addressUtxos (libs : AddressLibs) (codec : CursorCodec) (addr : String) (pagination : Pagination) :
    Handler (ApiResponse (List UtxoResponse)) :=
  addressUtxosInner libs codec addr none pagination

def addressUtxosByToken (libs : AddressLibs) (codec : CursorCodec) (addr tokenType : String)
    (pagination : Pagination) : Handler (ApiResponse (List UtxoResponse)) :=
  addressUtxosInner libs codec addr (some tokenType) pagination

end AddressUtxos

section Contracts

structure ContractListItem where
  address : String
  deployActionId : Nat
  latestActionId : Nat
  deriving DecidableEq

def ContractListItem.of (address : Bytes) (record : ContractRecord) : ContractListItem where
  address := hexEncode address
  deployActionId := record.deployActionId
  latestActionId := record.latestActionId

def contractListing : KeyedListing ContractListItem where
  part := .contracts
  scopeParts := [utf8 "contracts"]
  keyPrefix := []
  implied := []
  positionLen := none
  positionError := ""
  rowOf := fun entry => pure (.of entry.1 entry.2)

def contracts (codec : CursorCodec) (pagination : Pagination) :
    Handler (ApiResponse (List ContractListItem)) :=
  contractListing.request codec pagination

end Contracts

section DustRegistrations

structure RegistrationResponse where
  cardanoStakeKey : String
  dustAddress : String
  valid : Bool
  registeredAtHeight : Nat
  removedAtHeight : Option Nat
  utxoId : Option String
  utxoIndex : Option Nat
  deriving DecidableEq

/-- A live mapping is a valid registration, also in a row written before a
mapping implied that. -/
def RegistrationResponse.from (record : CnightRegistrationRecord) : RegistrationResponse where
  cardanoStakeKey := hexEncode record.cardanoStakeKey
  dustAddress := hexEncode record.dustAddress
  valid := record.valid || (record.utxoId.isSome && record.removedAtHeight.isNone)
  registeredAtHeight := record.registeredAtHeight
  removedAtHeight := record.removedAtHeight
  utxoId := record.utxoId.map hexEncode
  utxoIndex := record.utxoIndex

def parseStakeKey (libs : AddressLibs) (input : String) : Except ApiError (ByteArr 29) :=
  match libs.bech32Decode input with
  | some data =>
      if h : data.length = 29 then .ok ⟨data, h⟩
      else .error (.badRequest "bech32 stake key must decode to 29 bytes")
  | none =>
      match libs.hexDecode input with
      | some bytes =>
          if h : bytes.length = 29 then .ok ⟨bytes, h⟩
          else .error (.badRequest "invalid stake key: expected 29-byte hex or bech32")
      | none => .error (.badRequest "invalid stake key: expected 29-byte hex or bech32")

def registrationListing (stakeKey : Bytes) : KeyedListing RegistrationResponse where
  part := .cnightRegistrations
  scopeParts := [utf8 "dust_registrations", stakeKey]
  keyPrefix := stakeKey
  implied := []
  positionLen := none
  positionError := ""
  rowOf := fun entry => pure (.from entry.2)

def dustRegistrationsInner (libs : AddressLibs) (codec : CursorCodec) (stakeKey : Option String)
    (pagination : Pagination) : Handler (ApiResponse (List RegistrationResponse)) :=
  match stakeKey with
  | none => (registrationListing []).request codec pagination
  | some stakeKey => do
      let stakeKey ← liftExcept (parseStakeKey libs stakeKey)
      (registrationListing stakeKey.val).request codec pagination

def dustRegistrations (libs : AddressLibs) (codec : CursorCodec) (pagination : Pagination) :
    Handler (ApiResponse (List RegistrationResponse)) :=
  dustRegistrationsInner libs codec none pagination

def dustRegistrationsByStake (libs : AddressLibs) (codec : CursorCodec) (stakeKey : String)
    (pagination : Pagination) : Handler (ApiResponse (List RegistrationResponse)) :=
  dustRegistrationsInner libs codec (some stakeKey) pagination

end DustRegistrations

section UtxoIndex

def createdOf (blocks : List DerivedBlock) : List UnshieldedUtxo :=
  (blocks.flatMap DerivedBlock.transactions).flatMap AppliedTransaction.createdUtxos

/-- Whatever UTXOs a run creates and spends: the records and the entries of the
unspent index are of created UTXOs, and a created UTXO keeps a record. -/
structure UtxoIndex (view : Store) (created : List UnshieldedUtxo) : Prop where
  record : ∀ (key : Bytes) record, (view .utxos)[key]? = some record →
    record.utxo ∈ created ∧ outpointKey record.utxo = key
  entry : ∀ (k : Bytes) key, (view .utxosUnspentByOwner)[k]? = some key →
    ∃ utxo ∈ created, unspentKey utxo = k ∧ outpointKey utxo = key
  stored : ∀ utxo ∈ created, ∃ record, (view .utxos)[outpointKey utxo]? = some record

variable {s s' : Store} {st st' : Staged} {created : List UnshieldedUtxo} {txId : Nat} {utxo : UnshieldedUtxo}

theorem UtxoIndex.congr {view view' : Store} (h : UtxoIndex view created) (h₁ : view' .utxos = view .utxos)
    (h₂ : view' .utxosUnspentByOwner = view .utxosUnspentByOwner) : UtxoIndex view' created where
  record := by rw [h₁]; exact h.record
  entry := by rw [h₂]; exact h.entry
  stored := by rw [h₁]; exact h.stored

theorem UtxoIndex.create {view view' : Store} (h : UtxoIndex view created)
    (h₁ : view' .utxos = (view .utxos).insert (outpointKey utxo) ⟨utxo, txId, none⟩)
    (h₂ : view' .utxosUnspentByOwner = (view .utxosUnspentByOwner).insert (unspentKey utxo) (outpointKey utxo)) :
    UtxoIndex view' (created ++ [utxo]) where
  record := by
    intro key record hget
    rw [h₁, get_insert] at hget
    by_cases hk : outpointKey utxo = key
    · rw [if_pos hk] at hget
      obtain rfl := Option.some.inj hget
      exact ⟨by simp, hk⟩
    · rw [if_neg hk] at hget
      obtain ⟨hmem, hkey⟩ := h.record key record hget
      exact ⟨List.mem_append_left _ hmem, hkey⟩
  entry := by
    intro k key hget
    rw [h₂, get_insert] at hget
    by_cases hk : unspentKey utxo = k
    · rw [if_pos hk] at hget
      exact ⟨utxo, by simp, hk, Option.some.inj hget⟩
    · rw [if_neg hk] at hget
      obtain ⟨utxo', hmem, hkeys⟩ := h.entry k key hget
      exact ⟨utxo', List.mem_append_left _ hmem, hkeys⟩
  stored := by
    intro utxo' hmem
    rw [h₁, get_insert]
    by_cases hk : outpointKey utxo = outpointKey utxo'
    · exact ⟨_, if_pos hk⟩
    · rw [if_neg hk]
      rcases List.mem_append.mp hmem with hmem | hmem
      · exact h.stored utxo' hmem
      · rw [List.mem_singleton.mp hmem] at hk
        exact absurd rfl hk

theorem UtxoIndex.spend {view view' : Store} {record : UtxoRecord} (txId : Nat) (h : UtxoIndex view created)
    (hget : (view .utxos)[outpointKey utxo]? = some record)
    (h₁ : view' .utxos = (view .utxos).insert (outpointKey utxo) { record with spendingTxId := some txId })
    (h₂ : view' .utxosUnspentByOwner = (view .utxosUnspentByOwner).erase (unspentKey utxo)) :
    UtxoIndex view' created where
  record := by
    intro key record' hget'
    rw [h₁, get_insert] at hget'
    by_cases hk : outpointKey utxo = key
    · rw [if_pos hk] at hget'
      obtain rfl := Option.some.inj hget'
      rw [hk] at hget
      exact h.record key record hget
    · rw [if_neg hk] at hget'
      exact h.record key record' hget'
  entry := by
    intro k key hget'
    rw [h₂, get_erase] at hget'
    by_cases hk : unspentKey utxo = k
    · rw [if_pos hk] at hget'
      cases hget'
    · rw [if_neg hk] at hget'
      exact h.entry k key hget'
  stored := by
    intro utxo' hmem
    rw [h₁, get_insert]
    by_cases hk : outpointKey utxo = outpointKey utxo'
    · exact ⟨_, if_pos hk⟩
    · rw [if_neg hk]
      exact h.stored utxo' hmem

structure UtxosStaged (s : Store) (created : List UnshieldedUtxo) (st : Staged) : Prop where
  mirrors : Mirrors st.createdThisBlock (s .utxos) (pending s st .utxos)
  index : UtxoIndex (pending s st) created

theorem UtxosStaged.congr (h : UtxosStaged s created st) (hcaches : utxoCaches st' = utxoCaches st)
    (h₁ : pending s st' .utxos = pending s st .utxos)
    (h₂ : pending s st' .utxosUnspentByOwner = pending s st .utxosUnspentByOwner) :
    UtxosStaged s created st' := by
  have hcreated : st'.createdThisBlock = st.createdThisBlock := congrArg Prod.fst hcaches
  refine ⟨?_, h.index.congr h₁ h₂⟩
  rw [hcreated, h₁]
  exact h.mirrors

theorem UtxosStaged.create (h : UtxosStaged s created st) (txId : Nat) (utxo : UnshieldedUtxo) :
    UtxosStaged s (created ++ [utxo]) (createUtxo txId st utxo) := by
  have hutxos : pending s (createUtxo txId st utxo) .utxos =
      (pending s st .utxos).insert (outpointKey utxo) ⟨utxo, txId, none⟩ := by
    simp [createUtxo, outpointKey]
  refine ⟨?_, h.index.create hutxos (by simp [createUtxo, outpointKey])⟩
  rw [hutxos]
  exact h.mirrors.insert _ _

theorem UtxosStaged.createAll (h : UtxosStaged s created st) (txId : Nat) (utxos : List UnshieldedUtxo) :
    UtxosStaged s (created ++ utxos) (utxos.foldl (createUtxo txId) st) := by
  induction utxos generalizing created st with
  | nil => simpa using h
  | cons utxo utxos ih =>
      rw [List.append_cons]
      exact ih (h.create txId utxo)

theorem UtxosStaged.spend (h : UtxosStaged s created st) (hrun : spendUtxo s txId st utxo = .ok st') :
    UtxosStaged s created st' := by
  obtain ⟨record, hr, rfl⟩ := spendUtxo_ok.mp hrun
  rw [← h.mirrors] at hr
  refine ⟨?_, h.index.spend txId hr (by simp [outpointKey]) (by simp)⟩
  simp only [pending_touch, pending_addDelta, ne_eq, reduceCtorEq, not_false_eq_true,
    pending_remove_other, pending_stageUtxo, pending_put_same]
  exact h.mirrors.insert _ _

theorem UtxosStaged.transaction {height index : Nat} {applied : AppliedTransaction}
    (h : UtxosStaged s created st) (hrun : writeTransaction s height st (applied, index) = .ok st') :
    UtxosStaged s (created ++ applied.createdUtxos) st' := by
  obtain ⟨st₀, st₁, hsame, hspend, hsame'⟩ := writeTransaction_utxos hrun
  have hstart : UtxosStaged s created st₀ := h.congr hsame.caches hsame.utxos hsame.unspent
  have hspent : UtxosStaged s (created ++ applied.createdUtxos) st₁ :=
    foldlM_invariant hspend (hstart.createAll st.ids.nextTxId applied.createdUtxos)
      (fun utxo _ a b ha hb => ha.spend hb)
  exact hspent.congr hsame'.caches hsame'.utxos hsame'.unspent

theorem writeBlock_utxoIndex {d : DerivedBlock} {ledgerStateKey : Bytes} {window : LedgerStateWindow}
    {ids ids' : Counters} (h : UtxoIndex s created)
    (hblock : writeBlock s d.block d.transactions ledgerStateKey window ids = .ok (s', ids')) :
    UtxoIndex s' (created ++ d.transactions.flatMap AppliedTransaction.createdUtxos) := by
  obtain ⟨st, balances, hloop, htail, hs, rfl⟩ := writeBlock_ok.mp hblock
  have hstart : UtxosStaged s created (Staged.start ids) := ⟨Mirrors.start _, by simpa using h⟩
  have hstaged : UtxosStaged s (created ++
      (d.transactions.zipIdx.map Prod.fst).flatMap AppliedTransaction.createdUtxos) st := by
    refine foldlM_induct (I := fun done a => UtxosStaged s
      (created ++ (done.map Prod.fst).flatMap AppliedTransaction.createdUtxos) a) hloop (by simpa using hstart) ?_
    intro done entry a b _ ha hb
    simpa [List.append_assoc] using ha.transaction hb
  rw [List.zipIdx_map_fst] at hstaged
  refine hstaged.index.congr ?_ ?_ <;>
  · rw [hs, blockBatch_frame (by decide) htail]

theorem run_utxoIndex {blocks : List DerivedBlock} {s : Store} {ids : Counters} (h : Run blocks s ids) :
    UtxoIndex s (createdOf blocks) := by
  induction h with
  | start =>
      refine ⟨?_, ?_, ?_⟩
      · intro key record hget
        rw [fresh_other (by decide), get_empty] at hget
        cases hget
      · intro k key hget
        rw [fresh_other (by decide), get_empty] at hget
        cases hget
      · intro utxo hmem
        cases hmem
  | @step blocks s s' ids ids' d ledgerStateKey window h hroom hblock ih =>
      have hnext := writeBlock_utxoIndex ih hblock
      simpa [createdOf] using hnext
  | scan h hscan ih => exact ih.congr (hscan _ (by decide)) (hscan _ (by decide))

end UtxoIndex

section Shown

variable {σ : Nat → Store} {blocks : Nat → List DerivedBlock} {t : Nat}

theorem mem_createdOf {blocks : List DerivedBlock} {utxo : UnshieldedUtxo} :
    utxo ∈ createdOf blocks ↔ ∃ txId, .create txId utxo ∈ movesOf blocks := by
  have hmoves : ∀ txId, .create txId utxo ∈ movesOf blocks ↔ ∃ applied,
      (blocks.flatMap DerivedBlock.transactions)[txId]? = some applied ∧ utxo ∈ applied.createdUtxos := by
    intro txId
    simp only [movesOf, txMoves, List.mem_flatMap, Prod.exists, List.mk_mem_zipIdx_iff_getElem?,
      List.mem_append, List.mem_map, Move.create.injEq, reduceCtorEq, and_false, exists_false, or_false]
    constructor
    · rintro ⟨applied, i, hget, utxo', hmem, rfl, rfl⟩
      exact ⟨applied, hget, hmem⟩
    · rintro ⟨applied, hget, hmem⟩
      exact ⟨applied, txId, hget, utxo, hmem, rfl, rfl⟩
  rw [createdOf, List.mem_flatMap]
  constructor
  · rintro ⟨applied, happlied, hmem⟩
    obtain ⟨txId, hget⟩ := List.mem_iff_getElem?.mp happlied
    exact ⟨txId, (hmoves txId).mpr ⟨applied, hget, hmem⟩⟩
  · rintro ⟨txId, hcreate⟩
    obtain ⟨applied, hget, hmem⟩ := (hmoves txId).mp hcreate
    exact ⟨applied, List.mem_of_getElem? hget, hmem⟩

theorem createdOf_later (h : Growing σ blocks) {t' : Nat} (hle : t ≤ t') {utxo : UnshieldedUtxo}
    (hmem : utxo ∈ createdOf (blocks t)) : utxo ∈ createdOf (blocks t') := by
  obtain ⟨more, hmore⟩ := h.later hle
  rw [← hmore, createdOf, List.flatMap_append, List.flatMap_append]
  exact List.mem_append_left _ hmem

/-- The answer for an entry of the unspent index: a created UTXO with the
outpoint of the entry, and, where the ledger creates an outpoint once, with its
owner and token. -/
def utxoShown (blocks : Nat → List DerivedBlock) (t : Nat) (entry : Bytes × Bytes)
    (row : UtxoResponse) : Prop :=
  ∃ u utxo, t ≤ u ∧ row = .from utxo ∧ utxo ∈ createdOf (blocks u) ∧ outpointKey utxo = entry.2 ∧
    (LedgerConsistent (movesOf (blocks u)) → unspentKey utxo = entry.1)

def contractShown (_ : Nat) (entry : Bytes × ContractRecord) (row : ContractListItem) : Prop :=
  row = .of entry.1 entry.2

/-- The answer for a registration: its record, whose stake key and address are
those of its key. -/
def registrationShown (_ : Nat) (entry : Bytes × CnightRegistrationRecord)
    (row : RegistrationResponse) : Prop :=
  row = .from entry.2 ∧ RowOf entry.1 entry.2

theorem unspentKey_length (utxo : UnshieldedUtxo) : (unspentKey utxo).length = 100 := by
  rw [unspentKey, List.length_append, List.length_append, utxoKey_length, ByteArr.length_val,
    ByteArr.length_val]

theorem utxoListing_serves (h : Growing σ blocks) (owner : ByteArr 32) (token : Bytes) (tokenType : String) :
    Serves (utxoListing owner token tokenType) σ (utxoShown blocks) where
  implied := List.prefix_append owner.val token
  fits := by
    intro t k v hget hunder
    refine ⟨hunder, fun n hn => ?_⟩
    obtain rfl := Option.some.inj hn
    obtain ⟨ids, hrun⟩ := h.run t
    obtain ⟨utxo, -, rfl, -⟩ := (run_utxoIndex hrun).entry k v hget
    rw [unspentKey_length]
    exact congrArg (· + 68) owner.property.symm
  rowOf := by
    intro t u e hle hget hunder
    obtain ⟨ids, hrun⟩ := h.run t
    obtain ⟨utxo, hmem, hkey, hout⟩ := (run_utxoIndex hrun).entry e.1 e.2 hget
    have hlater := createdOf_later h hle hmem
    obtain ⟨ids', hrun'⟩ := h.run u
    obtain ⟨record, hrecord⟩ := (run_utxoIndex hrun').stored utxo hlater
    rw [hout] at hrecord
    obtain ⟨hcreated, hrecordKey⟩ := (run_utxoIndex hrun').record e.2 record hrecord
    refine ⟨.from record.utxo, u + 1, ?_, u, record.utxo, hle, rfl, hcreated, hrecordKey, fun hc => ?_⟩
    · change (query _ >>= _ : Handler _).run σ u = _
      rw [run_bind, run_query]
      dsimp only
      rw [hrecord]
      rfl
    · obtain ⟨i, hi⟩ := mem_createdOf.mp hlater
      obtain ⟨j, hj⟩ := mem_createdOf.mp hcreated
      rw [← hc.created_once hi hj (hout.trans hrecordKey.symm)]
      exact hkey

theorem contractListing_serves : Serves contractListing σ contractShown where
  implied := List.prefix_refl []
  fits := fun t k v _ hunder => ⟨hunder, fun n hn => by cases hn⟩
  rowOf := fun t u e _ _ _ => ⟨_, u, rfl, rfl⟩

theorem registrationListing_serves (h : Growing σ blocks) (stakeKey : Bytes) :
    Serves (registrationListing stakeKey) σ registrationShown where
  implied := List.nil_prefix
  fits := fun t k v _ hunder => ⟨hunder, fun n hn => by cases hn⟩
  rowOf := by
    intro t u e _ hget _
    obtain ⟨ids, hrun⟩ := h.run t
    exact ⟨_, u, rfl, rfl, run_registrations hrun e.1 e.2 hget⟩

theorem utxoListing_short (h : Growing σ blocks) (owner : ByteArr 32) (token : Bytes) (tokenType : String) :
    Short (utxoListing owner token tokenType) σ := by
  intro t k v hget hunder
  have hlen := ((utxoListing_serves h owner token tokenType).fits t k v hget hunder).length 68 rfl
  rw [KeyedListing.position, List.length_drop, hlen]
  omega

end Shown

section Results

variable {σ : Nat → Store} {blocks : Nat → List DerivedBlock} {codec : CursorCodec}

theorem dustRegistrationsByStake_eq {libs : AddressLibs} {stakeKey : String} {key : ByteArr 29}
    (hparse : parseStakeKey libs stakeKey = .ok key) :
    dustRegistrationsByStake libs codec stakeKey = (registrationListing key.val).request codec := by
  funext pagination
  rw [dustRegistrationsByStake, dustRegistrationsInner, hparse]
  rfl

/-- The walks over the current rows of the listings: which rows they return
whatever is committed between their requests, and that their requests succeed,
where the keys of the table are not too long for a cursor. -/
theorem current_listings_stable (hl : codec.Lawful) (h : Growing σ blocks) (libs : AddressLibs) :
    (∀ addr owner, parseAddr32 libs addr = .ok owner →
      Stable σ blocks (addressUtxos libs codec addr) .utxosUnspentByOwner owner.val (utxoShown blocks) ∧
      Proceeds σ blocks (addressUtxos libs codec addr) .utxosUnspentByOwner) ∧
    (∀ addr owner tokenType token, parseAddr32 libs addr = .ok owner →
      parseTokenType libs tokenType = .ok token →
      Stable σ blocks (addressUtxosByToken libs codec addr tokenType) .utxosUnspentByOwner
        (owner.val ++ token.val) (utxoShown blocks) ∧
      Proceeds σ blocks (addressUtxosByToken libs codec addr tokenType) .utxosUnspentByOwner) ∧
    (Stable σ blocks (contracts codec) .contracts [] contractShown ∧
      ((∀ t (k : Bytes), k ∈ σ t .contracts → k.length ≤ 690) →
        Proceeds σ blocks (contracts codec) .contracts)) ∧
    (Stable σ blocks (dustRegistrations libs codec) .cnightRegistrations [] registrationShown ∧
      ((∀ t (k : Bytes), k ∈ σ t .cnightRegistrations → k.length ≤ 690) →
        Proceeds σ blocks (dustRegistrations libs codec) .cnightRegistrations)) ∧
    (∀ stakeKey key, parseStakeKey libs stakeKey = .ok key →
      Stable σ blocks (dustRegistrationsByStake libs codec stakeKey) .cnightRegistrations key.val
        registrationShown ∧
      ((∀ t (k : Bytes), k ∈ σ t .cnightRegistrations → k.length ≤ 690) →
        Proceeds σ blocks (dustRegistrationsByStake libs codec stakeKey) .cnightRegistrations)) := by
  have hregistrations : ∀ stakeKey,
      (∀ t (k : Bytes), k ∈ σ t .cnightRegistrations → k.length ≤ 690) →
      Short (registrationListing stakeKey) σ := by
    intro stakeKey hshort t k v hget _
    exact hshort t k (mem_iff.mpr ⟨v, hget⟩)
  refine ⟨fun addr owner hparse => ?_, fun addr owner tokenType token hparse htoken => ?_, ?_, ?_,
    fun stakeKey key hparse => ?_⟩
  · have hendpoint : addressUtxos libs codec addr = (utxoListing owner [] "").request codec := by
      funext pagination
      rw [addressUtxos, addressUtxosInner, hparse]
      rfl
    have hs := utxoListing_serves h owner [] ""
    have hstable : Stable σ blocks ((utxoListing owner [] "").request codec) .utxosUnspentByOwner
        (owner.val ++ []) (utxoShown blocks) := hs.stable hl h
    have hproceeds := hs.proceeds hl h (utxoListing_short h owner [] "")
    rw [hendpoint]
    rw [List.append_nil] at hstable
    exact ⟨hstable, hproceeds⟩
  · have hendpoint : addressUtxosByToken libs codec addr tokenType =
        (utxoListing owner token.val tokenType).request codec := by
      funext pagination
      rw [addressUtxosByToken, addressUtxosInner, hparse]
      change (liftExcept (parseTokenType libs tokenType) >>= _ : Handler _) = _
      rw [htoken]
      rfl
    have hs := utxoListing_serves h owner token.val tokenType
    rw [hendpoint]
    exact ⟨hs.stable hl h, hs.proceeds hl h (utxoListing_short h owner token.val tokenType)⟩
  · refine ⟨contractListing_serves.stable hl h, fun hshort => contractListing_serves.proceeds hl h ?_⟩
    intro t k v hget _
    exact hshort t k (mem_iff.mpr ⟨v, hget⟩)
  · have hs := registrationListing_serves h []
    exact ⟨hs.stable hl h, fun hshort => hs.proceeds hl h (hregistrations [] hshort)⟩
  · have hs := registrationListing_serves h key.val
    rw [dustRegistrationsByStake_eq hparse]
    exact ⟨hs.stable hl h, fun hshort => hs.proceeds hl h (hregistrations key.val hshort)⟩

end Results

section Samples

def utxoScopeHash : ByteArr 32 :=
  ⟨[0x17, 0x19, 0x17, 0x96, 0xba, 0x2b, 0x84, 0x96, 0xb8, 0xfc, 0xdf, 0xf5, 0xc2, 0x1e, 0x40, 0x6d,
    0xda, 0x31, 0xcc, 0x54, 0xeb, 0x81, 0x00, 0x6b, 0xe2, 0x7a, 0x46, 0xd2, 0x0c, 0x43, 0x85, 0xf5],
    rfl⟩

def utxoCursorMac : ByteArr 32 :=
  ⟨[0x3a, 0xe0, 0xc9, 0xe9, 0x5a, 0xcb, 0x97, 0xee, 0x4e, 0xd6, 0x33, 0xdf, 0x67, 0x41, 0x90, 0x7c,
    0x60, 0xad, 0x1b, 0x4d, 0xe9, 0x3a, 0xb6, 0x73, 0x9d, 0xd9, 0xa5, 0x2d, 0x4d, 0xf6, 0x84, 0xef],
    rfl⟩

def utxoCodec : CursorCodec where
  key := List.replicate 32 0
  sha256 _ := utxoScopeHash
  hmacSha256 _ _ := utxoCursorMac
  base64Encode := Base64.encode
  base64Decode := Base64.decode

def secondUtxo : UnshieldedUtxo := { sampleUtxo with outputIndex := 1, outputIndex_lt := by decide }

def creatingBlock : DerivedBlock :=
  ⟨emptyBlock 0 zero_lt_u64, [{ emptyTransaction with createdUtxos := [sampleUtxo, secondUtxo] }],
    by simp [Derived, emptyTransaction]⟩

def spendingBlock : DerivedBlock :=
  ⟨emptyBlock 1 one_lt_u64, [{ emptyTransaction with spentUtxos := [sampleUtxo] }],
    by simp [Derived, emptyTransaction]⟩

def createdStore : Store × Counters :=
  (writeBlock fresh creatingBlock.block creatingBlock.transactions [] []
    (Counters.load fresh)).toOption.getD (fresh, Counters.load fresh)

def spentStore : Store × Counters :=
  (writeBlock createdStore.1 spendingBlock.block spendingBlock.transactions [] []
    createdStore.2).toOption.getD (fresh, Counters.load fresh)

theorem run_createdStore : Run [creatingBlock] createdStore.1 createdStore.2 :=
  Run.start.step creatingBlock [] [] (by decide +kernel) (ok_of_toBool (by decide +kernel) (fresh, Counters.load fresh))

theorem run_spentStore : Run ([creatingBlock] ++ [spendingBlock]) spentStore.1 spentStore.2 :=
  run_createdStore.step spendingBlock [] [] (by decide +kernel) (ok_of_toBool (by decide +kernel) (fresh, Counters.load fresh))

/-- The first UTXO is spent between the page that returns it and the next. -/
theorem growing_spent : Growing (fun t => if t < 4 then createdStore.1 else spentStore.1)
    (fun t => if t < 4 then [creatingBlock] else [creatingBlock] ++ [spendingBlock]) := by
  refine growing_once run_createdStore run_spentStore ?_ 4
  intro i d hd
  match i with
  | 0 => cases hd; rfl
  | 1 => cases hd; rfl
  | i + 2 => cases hd

/-- The second UTXO is returned once, by one of two requests. -/
theorem current_listings_stable_spent : ∃ requests visits,
    Requests (fun t => if t < 4 then createdStore.1 else spentStore.1)
      (fun cursor => addressUtxos hexLibs utxoCodec (hexEncode sampleUtxo.owner.val) ⟨1, .asc, cursor, none⟩)
      (fun _ => 1) 0 none requests ∧
    List.Forall₂ (Shows (fun t => if t < 4 then createdStore.1 else spentStore.1) .utxosUnspentByOwner
      sampleUtxo.owner.val (utxoShown fun t => if t < 4 then [creatingBlock] else [creatingBlock] ++ [spendingBlock])
      .asc 1) requests visits ∧
    ((returned visits).map Prod.fst).count (unspentKey secondUtxo) = 1 := by
  have hl : utxoCodec.Lawful := ⟨Base64.decode_encode, Base64.encode_size⟩
  obtain ⟨hutxos, -⟩ := current_listings_stable hl growing_spent hexLibs
  obtain ⟨hstable, hproceeds⟩ := hutxos (hexEncode sampleUtxo.owner.val) sampleUtxo.owner (by rfl)
  have hstill : ∀ t, 4 ≤ t → (if t < 4 then createdStore.1 else spentStore.1) .utxosUnspentByOwner =
      (if 4 < 4 then createdStore.1 else spentStore.1) .utxosUnspentByOwner := by
    intro t ht
    rw [if_neg (Nat.not_lt.mpr ht), if_neg (Nat.lt_irrefl 4)]
  obtain ⟨pages, hw⟩ := hproceeds.ends 1 .asc (fun _ => 1) 0 4 (by decide) (by simp) hstill
  obtain ⟨requests, hrequests, -⟩ := walk_requests hw
  obtain ⟨visits, hshows, -, -, -, honce, -⟩ :=
    hstable 1 .asc (fun _ => 1) 0 requests (by decide) (by simp) hrequests
  refine ⟨requests, visits, hrequests, hshows, honce _ ?_ fun _ _ u _ _ => ?_⟩
  · exact List.prefix_append_of_prefix (List.prefix_append _ _)
  · refine mem_iff.mpr ⟨outpointKey secondUtxo, ?_⟩
    dsimp only
    by_cases hu : u < 4
    · rw [if_pos hu]
      decide +kernel
    · rw [if_neg hu]
      decide +kernel

end Samples

end Nightfrost.CurrentState
