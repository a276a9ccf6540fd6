import Nightfrost.Lookups
import Nightfrost.ShieldedSync

namespace Nightfrost.TxLookups

open ByteOrder Tables Partitions Domain Schema WriteBlock ExceptFold MovingStore Api EntityLog
  BlockStep BlockRun Timeline Endpoints Lookups

structure TxResponse where
  id : Nat
  hash : String
  blockHeight : Nat
  blockHash : String
  blockTime : Nat
  blockAuthor : Option String
  index : Nat
  protocolVersion : Nat
  variant : TransactionVariant
  status : String
  segments : Option (List (Nat × Bool))
  paidFees : String
  estimatedFees : String
  identifiers : List String
  utxoCreatedCount : Nat
  utxoSpentCount : Nat
  eventCount : Nat
  contractActionCount : Nat
  deriving DecidableEq

def txStatus : TransactionResult → String × Option (List (Nat × Bool))
  | .success => ("success", none)
  | .partialSuccess segments => ("partial_success", some segments)
  | .failure => ("failure", none)

def TxResponse.of (txId : Nat) (record : TxRecord) (block : BlockRecord) : TxResponse where
  id := txId
  hash := hexEncode record.hash.val
  blockHeight := record.blockHeight
  blockHash := hexEncode block.hash.val
  blockTime := block.timestamp
  blockAuthor := block.author.map (fun author => hexEncode author.val)
  index := record.indexInBlock
  protocolVersion := block.protocolVersion
  variant := record.variant
  status := (txStatus record.result).1
  segments := (txStatus record.result).2
  paidFees := toString record.paidFees
  estimatedFees := toString record.estimatedFees
  identifiers := record.identifiers.map hexEncode
  utxoCreatedCount := record.createdUtxos.length
  utxoSpentCount := record.spentUtxos.length
  eventCount := record.eventCount
  contractActionCount := record.contractActionIds.length

def txResponse (txId : Nat) (record : TxRecord) : Handler TxResponse := do
  match ← query (Schema.block · record.blockHeight) with
  | none => .fail (.internal "missing block for tx")
  | some block => pure (.of txId record block)

def txPoint (libs : AddressLibs) (hash : String) : Handler (PointResponse TxResponse) := do
  let (txId, record) ← txByHash libs hash
  response (← txResponse txId record)

def txIdsByIdentifier (s : Store) (identifier : Bytes) : List Nat :=
  (scanPrefix (s .txsByIdentifier) identifier).map (fun entry => keyU64Suffix entry.1)

def parseIdentifier (libs : AddressLibs) (identifier : String) : Except ApiError Bytes :=
  match libs.hexDecode (String.ofList (ShieldedSync.trimStart0x identifier.toList)) with
  | none => .error (.badRequest "invalid transaction identifier")
  | some bytes =>
      if bytes.length ≠ 33 then .error (.badRequest "transaction identifier must be 33 bytes")
      else .ok bytes

def txByIdentifier (libs : AddressLibs) (identifier : String) : Handler (PointResponse TxResponse) := do
  let identifier ← liftExcept (parseIdentifier libs identifier)
  match ← query (fun s => (txIdsByIdentifier s identifier).getLast?) with
  | none => .fail (.notFound "transaction not found")
  | some txId =>
      match ← query (tx · txId) with
      | none => .fail (.notFound "transaction not found")
      | some record => response (← txResponse txId record)

section Spec

/-- The transaction of greatest id with a property. -/
structure MostRecent (txs : List TxRecord) (p : TxRecord → Prop) (txId : Nat) (record : TxRecord) :
    Prop where
  stored : txs[txId]? = some record
  holds : p record
  latest : ∀ (i : Nat) other, txs[i]? = some other → p other → i ≤ txId

end Spec

section Scans

variable {V : Type} {t : Table Unit} {entries : List V} {parts : V → List Bytes} {p : Bytes}

/-- An index whose keys are parts of one length, each with the id behind it, lists
under a part the ids of the entries that have it, in their order. -/
structure Lists (ids : List Nat) (entries : List V) (parts : V → List Bytes) (p : Bytes) : Prop where
  mem : ∀ i, i ∈ ids ↔ ∃ v, entries[i]? = some v ∧ p ∈ parts v
  sorted : ids.Pairwise (· < ·)

theorem scan_lists {keys : V → Nat → List Bytes} (h : IndexOf t entries keys)
    (hkeys : ∀ v i, keys v i = (parts v).map (fun q => prefixedU64Key q i))
    (hbound : entries.length ≤ 2 ^ 64) (hlen : ∀ v ∈ entries, ∀ q ∈ parts v, q.length = p.length) :
    Lists ((scanPrefix t p).map (fun entry => keyU64Suffix entry.1)) entries parts p := by
  have hrow : ∀ entry ∈ scanPrefix t p, ∃ i v, entries[i]? = some v ∧ p ∈ parts v ∧
      entry.1 = prefixedU64Key p i ∧ i < 2 ^ 64 := by
    intro entry hentry
    obtain ⟨hget, hunder⟩ := mem_scanPrefix.mp hentry
    obtain ⟨i, v, hv, q, hq, hkey⟩ := (index_rows h hkeys entry.1).mp ⟨_, hget⟩
    have hi : i < 2 ^ 64 := Nat.lt_of_lt_of_le (List.getElem?_eq_some_iff.mp hv).1 hbound
    rw [hkey] at hunder
    obtain ⟨rest, hrest⟩ := hunder
    obtain ⟨rfl, -⟩ := List.append_inj hrest (hlen v (List.mem_of_getElem? hv) q hq).symm
    exact ⟨i, v, hv, hq, hkey, hi⟩
  constructor
  · intro i
    rw [List.mem_map]
    constructor
    · rintro ⟨entry, hentry, rfl⟩
      obtain ⟨i, v, hv, hp, hkey, hi⟩ := hrow entry hentry
      rw [hkey, prefixedU64Key_suffix p hi]
      exact ⟨v, hv, hp⟩
    · rintro ⟨v, hv, hp⟩
      have hi : i < 2 ^ 64 := Nat.lt_of_lt_of_le (List.getElem?_eq_some_iff.mp hv).1 hbound
      obtain ⟨u, hget⟩ := (index_rows h hkeys (prefixedU64Key p i)).mpr ⟨i, v, hv, p, hp, rfl⟩
      refine ⟨(prefixedU64Key p i, u), mem_scanPrefix.mpr ⟨hget, List.prefix_append p _⟩, ?_⟩
      exact prefixedU64Key_suffix p hi
  · rw [List.pairwise_map]
    refine (scanPrefix_sorted t p).imp_of_mem fun {a b} ha hb hab => ?_
    obtain ⟨i, -, -, -, hkey, hi⟩ := hrow a ha
    obtain ⟨j, -, -, -, hkey', hj⟩ := hrow b hb
    rw [hkey, hkey', prefixedU64Key, prefixedU64Key, compare_append_left, compare_be hi hj] at hab
    rw [hkey, hkey', prefixedU64Key_suffix p hi, prefixedU64Key_suffix p hj]
    exact Nat.compare_eq_lt.mp hab

theorem Lists.last {ids : List Nat} (h : Lists ids entries parts p) {last : Nat}
    (hlast : ids.getLast? = some last) {i : Nat} (hi : i ∈ ids) : i ≤ last := by
  obtain ⟨front, rfl⟩ := List.getLast?_eq_some_iff.mp hlast
  rcases List.mem_append.mp hi with hi | hi
  · exact ((List.pairwise_append.mp h.sorted).2.2 i hi last List.mem_cons_self).le
  · exact (List.mem_singleton.mp hi).le

theorem Lists.mostRecent {txs : List TxRecord} {parts : TxRecord → List Bytes} {ids : List Nat}
    (h : Lists ids txs parts p) :
    (ids.getLast? = none ∧ ∀ record ∈ txs, p ∉ parts record) ∨
      ∃ txId record, ids.getLast? = some txId ∧ MostRecent txs (fun r => p ∈ parts r) txId record := by
  cases hlast : ids.getLast? with
  | none =>
      refine .inl ⟨rfl, fun record hrecord hp => ?_⟩
      obtain ⟨i, hi⟩ := List.mem_iff_getElem?.mp hrecord
      have hmem := (h.mem i).mpr ⟨record, hi, hp⟩
      rw [List.getLast?_eq_none_iff.mp hlast] at hmem
      cases hmem
  | some txId =>
      obtain ⟨record, hrecord, hp⟩ := (h.mem txId).mp (List.mem_of_getLast? hlast)
      refine .inr ⟨txId, record, rfl, hrecord, hp, fun i other hother hp' => ?_⟩
      exact h.last hlast ((h.mem i).mpr ⟨other, hother, hp'⟩)

end Scans

section Requests

variable {σ : Nat → Store} {blocks : Nat → List DerivedBlock} {t t' : Nat}

def IdentifiersFrom (blocks : List DerivedBlock) (log : ChainLog) : Prop :=
  ∀ record ∈ log.txs, ∀ identifier ∈ record.identifiers, ∃ d ∈ blocks, ∃ applied ∈ d.transactions,
    identifier ∈ applied.identifiers

theorem logOf_identifiers (blocks : List DerivedBlock) : IdentifiersFrom blocks (logOf blocks) := by
  apply logOf_induct
  · exact fun record hrecord => absurd hrecord List.not_mem_nil
  · exact fun log records h => h
  · intro d hd entry hentry log h record hrecord identifier hidentifier
    rcases List.mem_append.mp hrecord with hold | hnew
    · exact h record hold identifier hidentifier
    · rw [List.mem_singleton.mp hnew] at hidentifier
      exact ⟨d, hd, entry.1, List.fst_mem_of_mem_zipIdx hentry, hidentifier⟩

theorem tx_height (h : Growing σ blocks) {txId : Nat} {record : TxRecord}
    (hget : (logOf (blocks t)).txs[txId]? = some record) : record.blockHeight < (blocks t).length := by
  obtain ⟨new, hnew, hheights⟩ := (h.consecutive t).heights.txs
  rw [hnew] at hget
  exact hheights record (List.mem_of_getElem? (by simpa [ChainLog.empty] using hget))

theorem txResponse_run (h : Growing σ blocks) (hle : t ≤ t') {txId : Nat} {record : TxRecord}
    (hget : (logOf (blocks t)).txs[txId]? = some record) :
    ∃ block answer t'', (logOf (blocks t)).blocks[record.blockHeight]? = some block ∧
      (txResponse txId record >>= response).run σ t' = .ok (answer, t'') ∧
      answer.results = .of txId record block := by
  obtain ⟨block, hrecord, hblock⟩ := h.block hle (tx_height h hget)
  obtain ⟨answer, t'', hrun, hresults⟩ := h.response (TxResponse.of txId record block) (t' + 1)
  refine ⟨block, answer, t'', hrecord, ?_, hresults⟩
  rw [run_bind, txResponse, run_bind, run_query]
  dsimp only
  rw [hblock]
  exact hrun

/-- A request finds the most recent transaction with a property, or it is told
that there is none. -/
def Finds (txs : List TxRecord) (p : TxRecord → Prop) (found : Nat → TxRecord → Prop)
    (missing : Prop) : Prop :=
  (∃ txId record, MostRecent txs p txId record ∧ found txId record) ∨ (∀ record ∈ txs, ¬ p record) ∧ missing

theorem txByHash_run (h : Growing σ blocks) (t : Nat) {libs : AddressLibs} {input : String}
    {hash : ByteArr 32} (hinput : libs.hexDecode input = some hash.val) :
    Finds (logOf (blocks t)).txs (fun record => record.hash = hash)
      (fun txId record => (txByHash libs input).run σ t = .ok ((txId, record), t + 2))
      ((txByHash libs input).run σ t = .error (.notFound "transaction not found")) := by
  obtain ⟨ids, hrun⟩ := h.run t
  have hlists : Lists (txIdsByHash (σ t) hash) (logOf (blocks t)).txs
      (fun record => [record.hash.val]) hash.val := by
    refine scan_lists hrun.holds.tables.txs.byHash (fun record i => rfl)
      hrun.holds.tables.txs.records.bound fun record _ q hq => ?_
    rw [List.mem_singleton.mp hq, record.hash.property, hash.property]
  have hsame : ∀ record : TxRecord, hash.val ∈ [record.hash.val] ↔ record.hash = hash := by
    intro record
    rw [List.mem_singleton, Subtype.ext_iff]
    exact eq_comm
  have hrun' : (txByHash libs input).run σ t =
      (match (txIdsByHash (σ t) hash).getLast? with
        | none => .fail (.notFound "transaction not found")
        | some txId => do
            match ← query (Schema.tx · txId) with
            | none => .fail (.notFound "transaction not found")
            | some record => pure (txId, record) : Handler (Nat × TxRecord)).run σ (t + 1) := by
    rw [txByHash, hinput]
    dsimp only
    rw [dif_pos hash.property]
    rfl
  rcases hlists.mostRecent with ⟨hnone, hmissing⟩ | ⟨txId, record, hlast, hrecent⟩
  · refine .inr ⟨fun record hrecord he => hmissing record hrecord ((hsame record).mpr he), ?_⟩
    rw [hrun', hnone]
    rfl
  · refine .inl ⟨txId, record, ⟨hrecent.stored, (hsame record).mp hrecent.holds,
      fun i other hother he => hrecent.latest i other hother ((hsame other).mpr he)⟩, ?_⟩
    rw [hrun', hlast]
    dsimp only
    rw [run_bind, run_query]
    dsimp only
    rw [h.tx (Nat.le_succ t) hrecent.stored]
    rfl

theorem txPoint_run (h : Growing σ blocks) (t : Nat) {libs : AddressLibs} {input : String}
    {hash : ByteArr 32} (hinput : libs.hexDecode input = some hash.val) :
    Finds (logOf (blocks t)).txs (fun record => record.hash = hash)
      (fun txId record => ∃ block answer t',
        (logOf (blocks t)).blocks[record.blockHeight]? = some block ∧
        (txPoint libs input).run σ t = .ok (answer, t') ∧ answer.results = .of txId record block)
      ((txPoint libs input).run σ t = .error (.notFound "transaction not found")) := by
  rcases txByHash_run h t hinput with ⟨txId, record, hrecent, hfound⟩ | ⟨hmissing, hnot⟩
  · refine .inl ⟨txId, record, hrecent, ?_⟩
    obtain ⟨block, answer, t', hblock, hrun, hresults⟩ :=
      txResponse_run h (Nat.le_add_right t 2) hrecent.stored
    refine ⟨block, answer, t', hblock, ?_, hresults⟩
    rw [txPoint, run_bind, hfound]
    exact hrun
  · refine .inr ⟨hmissing, ?_⟩
    rw [txPoint, run_bind, hnot]

theorem txByIdentifier_run (h : Growing σ blocks)
    (hids : ∀ d ∈ blocks t, ∀ applied ∈ d.transactions, ∀ x ∈ applied.identifiers, x.length = 33)
    {libs : AddressLibs} {input : String} {identifier : Bytes}
    (hinput : parseIdentifier libs input = .ok identifier) (hlength : identifier.length = 33) :
    Finds (logOf (blocks t)).txs (fun record => identifier ∈ record.identifiers)
      (fun txId record => ∃ block answer t',
        (logOf (blocks t)).blocks[record.blockHeight]? = some block ∧
        (txByIdentifier libs input).run σ t = .ok (answer, t') ∧ answer.results = .of txId record block)
      ((txByIdentifier libs input).run σ t = .error (.notFound "transaction not found")) := by
  obtain ⟨ids, hrun⟩ := h.run t
  have hlists : Lists (txIdsByIdentifier (σ t) identifier) (logOf (blocks t)).txs
      TxRecord.identifiers identifier := by
    refine scan_lists hrun.holds.tables.txs.byIdentifier (fun record i => rfl)
      hrun.holds.tables.txs.records.bound fun record hrecord q hq => ?_
    obtain ⟨d, hd, applied, happlied, hmem⟩ := logOf_identifiers (blocks t) record hrecord q hq
    rw [hids d hd applied happlied q hmem, hlength]
  have hrun' : (txByIdentifier libs input).run σ t =
      (match (txIdsByIdentifier (σ t) identifier).getLast? with
        | none => .fail (.notFound "transaction not found")
        | some txId => do
            match ← query (Schema.tx · txId) with
            | none => .fail (.notFound "transaction not found")
            | some record => response (← txResponse txId record) :
        Handler (PointResponse TxResponse)).run σ (t + 1) := by
    rw [txByIdentifier, hinput]
    rfl
  rcases hlists.mostRecent with ⟨hnone, hmissing⟩ | ⟨txId, record, hlast, hrecent⟩
  · refine .inr ⟨hmissing, ?_⟩
    rw [hrun', hnone]
    rfl
  · refine .inl ⟨txId, record, hrecent, ?_⟩
    obtain ⟨block, answer, t', hblock, hresponse, hresults⟩ :=
      txResponse_run h (Nat.le_add_right t 2) hrecent.stored
    refine ⟨block, answer, t', hblock, ?_, hresults⟩
    rw [hrun', hlast]
    dsimp only
    rw [run_bind, run_query]
    dsimp only
    rw [h.tx (Nat.le_succ t) hrecent.stored]
    exact hresponse

theorem parseIdentifier_ok {libs : AddressLibs} {input : String} {identifier : Bytes}
    (hdecode : libs.hexDecode (String.ofList (ShieldedSync.trimStart0x input.toList)) = some identifier)
    (hlength : identifier.length = 33) : parseIdentifier libs input = .ok identifier := by
  rw [parseIdentifier, hdecode]
  dsimp only
  rw [if_neg (not_not.mpr hlength)]

end Requests

section Results

variable {σ : Nat → Store} {blocks : Nat → List DerivedBlock}

/-- Lookups by hash and by identifier answer with the most recent inclusion. -/
theorem lookups_mostRecent (h : Growing σ blocks) (libs : AddressLibs) (t : Nat)
    (hids : ∀ d ∈ blocks t, ∀ applied ∈ d.transactions, ∀ x ∈ applied.identifiers, x.length = 33) :
    (∀ input (hash : ByteArr 32), libs.hexDecode input = some hash.val →
      Finds (logOf (blocks t)).txs (fun record => record.hash = hash)
        (fun txId record => (txByHash libs input).run σ t = .ok ((txId, record), t + 2))
        ((txByHash libs input).run σ t = .error (.notFound "transaction not found"))) ∧
    (∀ input (hash : ByteArr 32), libs.hexDecode input = some hash.val →
      Finds (logOf (blocks t)).txs (fun record => record.hash = hash)
        (fun txId record => ∃ block answer t',
          (logOf (blocks t)).blocks[record.blockHeight]? = some block ∧
          (txPoint libs input).run σ t = .ok (answer, t') ∧ answer.results = .of txId record block)
        ((txPoint libs input).run σ t = .error (.notFound "transaction not found"))) ∧
    ∀ input identifier,
      libs.hexDecode (String.ofList (ShieldedSync.trimStart0x input.toList)) = some identifier →
      identifier.length = 33 →
      Finds (logOf (blocks t)).txs (fun record => identifier ∈ record.identifiers)
        (fun txId record => ∃ block answer t',
          (logOf (blocks t)).blocks[record.blockHeight]? = some block ∧
          (txByIdentifier libs input).run σ t = .ok (answer, t') ∧
          answer.results = .of txId record block)
        ((txByIdentifier libs input).run σ t = .error (.notFound "transaction not found")) :=
  ⟨fun _ _ hinput => txByHash_run h t hinput, fun _ _ hinput => txPoint_run h t hinput,
    fun _ _ hdecode hlength =>
      txByIdentifier_run h hids (parseIdentifier_ok hdecode hlength) hlength⟩

end Results

section Sample

def twiceIdentifier : Bytes := List.replicate 33 2

def twiceTransaction : AppliedTransaction :=
  { emptyTransaction with identifiers := [twiceIdentifier, List.replicate 33 3] }

def twiceBlock : DerivedBlock :=
  ⟨emptyBlock 0 zero_lt_u64, [twiceTransaction, twiceTransaction],
    by simp [Derived, twiceTransaction, emptyTransaction]⟩

def twiceStore : Store × Counters :=
  (writeBlock fresh twiceBlock.block twiceBlock.transactions [] []
    (Counters.load fresh)).toOption.getD (fresh, Counters.load fresh)

theorem run_twiceStore : Run [twiceBlock] twiceStore.1 twiceStore.2 :=
  Run.start.step twiceBlock [] [] (by decide +kernel) (ok_of_toBool (by decide +kernel) (fresh, Counters.load fresh))

theorem growing_twice : Growing (fun _ => twiceStore.1) (fun _ => [twiceBlock]) := by
  refine growing_still run_twiceStore fun i d hd => ?_
  cases i with
  | zero =>
      cases hd
      rfl
  | succ i => cases hd

theorem twice_txs : (logOf [twiceBlock]).txs.length = 2 ∧
    ∃ record, (logOf [twiceBlock]).txs[1]? = some record ∧ record.hash = .filled 32 0 ∧
      record.identifiers = [twiceIdentifier, List.replicate 33 3] :=
  ⟨rfl, _, rfl, rfl, rfl⟩

theorem Finds.last {p : TxRecord → Prop} {found : Nat → TxRecord → Prop} {missing : Prop}
    (h : Finds (logOf [twiceBlock]).txs p found missing)
    (hp : ∀ record, (logOf [twiceBlock]).txs[1]? = some record → p record) :
    ∃ record, found 1 record := by
  obtain ⟨hlength, last, hlast, -⟩ := twice_txs
  rcases h with ⟨txId, record, hrecent, hfound⟩ | ⟨hnone, -⟩
  · have hle := hrecent.latest 1 last hlast (hp last hlast)
    have hlt := (List.getElem?_eq_some_iff.mp hrecent.stored).1
    obtain rfl : txId = 1 := by omega
    exact ⟨record, hfound⟩
  · exact absurd (hp last hlast) (hnone last (List.mem_of_getElem? hlast))

/-- The second inclusion is the one that is found. -/
theorem lookups_mostRecent_twice :
    (∃ record, (txByHash hexLibs (hexEncode (List.replicate 32 0))).run (fun _ => twiceStore.1) 0 =
      .ok ((1, record), 2)) ∧
    ∃ answer t', (txByIdentifier hexLibs (hexEncode twiceIdentifier)).run (fun _ => twiceStore.1) 0 =
      .ok (answer, t') ∧ answer.results.id = 1 := by
  obtain ⟨last, hlast, hhash, hids⟩ := twice_txs.2
  have hsame : ∀ record, (logOf [twiceBlock]).txs[1]? = some record → record = last :=
    fun record hrecord => Option.some.inj (hrecord.symm.trans hlast)
  obtain ⟨hbyHash, -, hbyIdentifier⟩ := lookups_mostRecent growing_twice hexLibs 0 (by decide)
  constructor
  · refine (hbyHash _ (.filled 32 0) (by rfl)).last fun record hrecord => ?_
    rw [hsame record hrecord]
    exact hhash
  · have hfound := hbyIdentifier (hexEncode twiceIdentifier) twiceIdentifier (by rfl) (by rfl)
    obtain ⟨record, block, answer, t', -, hrun, hresults⟩ := hfound.last fun record hrecord => by
      rw [hsame record hrecord, hids]
      exact List.mem_cons_self
    exact ⟨answer, t', hrun, by rw [hresults]; rfl⟩

end Sample

end Nightfrost.TxLookups
