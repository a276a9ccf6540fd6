import Nightfrost.JournalFormat

namespace Nightfrost.JournalReader

open ByteOrder Domain PrefixCodes JournalFormat

structure Batch where
  seqno : Nat
  items : List Item
  deriving DecidableEq

inductive RecoveryError
  | insufficientLength
  | tooManyItems
  | checksumMismatch
  deriving DecidableEq

/-- The state of the batch reader. The checksum builder is what it was fed. -/
structure BatchReader where
  items : List Item
  isInBatch : Bool
  batchCounter : Nat
  batchSeqno : Nat
  lastValidPos : Nat
  hashed : Bytes

def BatchReader.new : BatchReader where
  items := []
  isInBatch := false
  batchCounter := 0
  batchSeqno := 0
  lastValidPos := 0
  hashed := []

/-- What the reader does with a marker: go on, hand out a batch, cut the file off at
the last valid position and end, or fail. -/
inductive Turn
  | more (reader : BatchReader)
  | batch (reader : BatchReader) (batch : Batch)
  | discard
  | fail (error : RecoveryError)

variable (coding : TreeCoding)

def BatchReader.turn (reader : BatchReader) (journalFilePos : Nat) : Marker → Turn
  | .start itemCount seqno _ =>
      if reader.isInBatch then .discard
      else .more { reader with isInBatch := true, batchCounter := itemCount, batchSeqno := seqno }
  | .finish expectedChecksum =>
      if reader.batchCounter > 0 then .fail .insufficientLength
      else if reader.isInBatch = false then .discard
      else if coding.xxh3 reader.hashed ≠ expectedChecksum then .fail .checksumMismatch
      else .batch
        { items := []
          isInBatch := false
          batchCounter := 0
          batchSeqno := reader.batchSeqno
          lastValidPos := journalFilePos
          hashed := [] }
        ⟨reader.batchSeqno, reader.items⟩
  | .item entry =>
      if reader.isInBatch = false then .discard
      else if reader.batchCounter = 0 then .fail .tooManyItems
      else .more
        { reader with
          hashed := reader.hashed ++ serializeMarkerItem coding entry
          batchCounter := reader.batchCounter - 1
          items := reader.items ++ [entry] }

/-- How reading a journal ends: with the batches and the length that the file is left
with, with an error, or with a panic. The last would be a reader that never ends. -/
inductive Recovered
  | journal (batches : List Batch) (length : Nat)
  | failed (batches : List Batch) (error : RecoveryError)
  | panicked (batches : List Batch)
  | unfinished
  deriving DecidableEq

/-- `pos` is the position behind the last marker read. Where no marker follows, the
file is cut off there, and a batch that has not ended is cut off as well. -/
def readBatches : Nat → BatchReader → Nat → Bytes → List Batch → Recovered
  | 0, _, _, _, _ => .unfinished
  | fuel + 1, reader, pos, rest, done =>
      match Marker.decode coding rest with
      | .error (.panicked _) => .panicked done
      | .error _ => .journal done (if reader.isInBatch then reader.lastValidPos else pos)
      | .ok (marker, rest') =>
          let pos := pos + (rest.length - rest'.length)
          match reader.turn coding pos marker with
          | .more reader => readBatches fuel reader pos rest' done
          | .batch reader batch => readBatches fuel reader pos rest' (done ++ [batch])
          | .discard => .journal done reader.lastValidPos
          | .fail error => .failed done error

def readJournal (file : Bytes) : Recovered :=
  readBatches coding (file.length + 1) .new 0 file []

section Reading

variable {coding} {reader reader' : BatchReader} {pos : Nat} {rest : Bytes} {done : List Batch}

theorem readBatches_fuel (hc : coding.Lawful) {fuel fuel' : Nat} (h : rest.length < fuel)
    (h' : rest.length < fuel') : readBatches coding fuel reader pos rest done =
      readBatches coding fuel' reader pos rest done := by
  induction fuel generalizing fuel' reader pos rest done with
  | zero => exact absurd h (Nat.not_lt_zero _)
  | succ fuel ih =>
      cases fuel' with
      | zero => exact absurd h' (Nat.not_lt_zero _)
      | succ fuel' =>
          rw [readBatches, readBatches]
          cases hdec : Marker.decode coding rest with
          | error e => cases e <;> rfl
          | ok entry =>
              obtain ⟨marker, rest'⟩ := entry
              have hlt := (decode_exact hc).shrinks hdec
              simp only
              cases reader.turn coding (pos + (rest.length - rest'.length)) marker with
              | more next => exact ih (by omega) (by omega)
              | batch next batch => exact ih (by omega) (by omega)
              | discard => rfl
              | fail error => rfl

def readAll (coding : TreeCoding) (reader : BatchReader) (pos : Nat) (rest : Bytes)
    (done : List Batch) : Recovered :=
  readBatches coding (rest.length + 1) reader pos rest done

theorem decode_marker (hc : coding.Lawful) {marker : Marker} (hm : marker.Fits) (rest : Bytes) :
    Marker.decode coding (marker.encode coding ++ rest) = .ok (marker, rest) ∧
      rest.length < (marker.encode coding ++ rest).length ∧
      (marker.encode coding ++ rest).length - rest.length = (marker.encode coding).length := by
  have hdec := (decode_exact hc).decodes hm rest
  refine ⟨hdec, (decode_exact hc).shrinks hdec, ?_⟩
  rw [List.length_append]
  omega

theorem readAll_more (hc : coding.Lawful) {marker : Marker} (hm : marker.Fits)
    (hturn : reader.turn coding (pos + (marker.encode coding).length) marker = .more reader') :
    readAll coding reader pos (marker.encode coding ++ rest) done =
      readAll coding reader' (pos + (marker.encode coding).length) rest done := by
  obtain ⟨hdec, hlt, hlen⟩ := decode_marker hc hm rest
  rw [readAll, readBatches, hdec]
  simp only [hlen, hturn]
  exact readBatches_fuel hc hlt (Nat.lt_succ_self _)

theorem readAll_batch (hc : coding.Lawful) {marker : Marker} (hm : marker.Fits) {batch : Batch}
    (hturn : reader.turn coding (pos + (marker.encode coding).length) marker =
      .batch reader' batch) :
    readAll coding reader pos (marker.encode coding ++ rest) done =
      readAll coding reader' (pos + (marker.encode coding).length) rest (done ++ [batch]) := by
  obtain ⟨hdec, hlt, hlen⟩ := decode_marker hc hm rest
  rw [readAll, readBatches, hdec]
  simp only [hlen, hturn]
  exact readBatches_fuel hc hlt (Nat.lt_succ_self _)

theorem readAll_end (hreturns : Returns (Marker.decode coding rest))
    (hno : ∀ m rest', Marker.decode coding rest ≠ .ok (m, rest')) :
    readAll coding reader pos rest done =
      .journal done (if reader.isInBatch then reader.lastValidPos else pos) := by
  rw [readAll, readBatches]
  cases hdec : Marker.decode coding rest with
  | ok entry => exact absurd hdec (hno entry.1 entry.2)
  | error e =>
      cases e with
      | panicked message => exact absurd hdec (hreturns message)
      | unexpectedEof => rfl
      | invalidTag name value => rfl
      | invalidTrailer => rfl
      | utf8 => rfl

end Reading

section Batches

structure Batch.Fits (batch : Batch) : Prop where
  seqno : batch.seqno < 2 ^ 64
  count : batch.items.length < 2 ^ 32
  items : ∀ item ∈ batch.items, item.Fits

def body (items : List Item) : Bytes := items.flatMap (serializeMarkerItem coding)

def Batch.markers (batch : Batch) : List Marker :=
  .start batch.items.length batch.seqno .none ::
    (batch.items.map .item ++ [.finish (coding.xxh3 (body coding batch.items))])

def Batch.encode (batch : Batch) : Bytes :=
  ((batch.markers coding).map (Marker.encode coding)).flatten

def encodeAll (batches : List Batch) : Bytes := (batches.map (Batch.encode coding)).flatten

def writeAll (batches : List Batch) : Bytes :=
  (batches.map (fun batch => writeBatch coding batch.items batch.seqno)).flatten

def BatchReader.between (seqno pos : Nat) : BatchReader := ⟨[], false, 0, seqno, pos, []⟩

def BatchReader.inside (seqno pos count : Nat) (items : List Item) : BatchReader :=
  ⟨items, true, count, seqno, pos, body coding items⟩

variable {coding} {pos start seqno seqno' : Nat} {rest : Bytes} {done : List Batch}

theorem body_append (items more : List Item) :
    body coding (items ++ more) = body coding items ++ body coding more := List.flatMap_append

theorem encode_items (items : List Item) :
    ((items.map Marker.item).map (Marker.encode coding)).flatten = body coding items := by
  rw [List.map_map, body, List.flatMap_def]
  rfl

theorem encode_batch (batch : Batch) : batch.encode coding =
    (Marker.start batch.items.length batch.seqno .none).encode coding ++ (body coding batch.items ++
      (Marker.finish (coding.xxh3 (body coding batch.items))).encode coding) := by
  rw [Batch.encode, Batch.markers, List.map_cons, List.flatten_cons, List.map_append,
    List.flatten_append, encode_items]
  simp

theorem writeBatch_eq (batch : Batch) : writeBatch coding batch.items batch.seqno =
    if batch.items = [] then [] else batch.encode coding := by
  rw [writeBatch, encode_batch, List.append_assoc]
  simp [List.length_eq_zero_iff, body]

theorem writeAll_eq {batches : List Batch} (h : ∀ batch ∈ batches, batch.items ≠ []) :
    writeAll coding batches = encodeAll coding batches := by
  rw [writeAll, encodeAll]
  congr 1
  apply List.map_congr_left
  intro batch hbatch
  rw [writeBatch_eq, if_neg (h batch hbatch)]

theorem markers_fit (hc : coding.Lawful) {batch : Batch} (h : batch.Fits) :
    ∀ m ∈ batch.markers coding, m.Fits := by
  intro m hm
  rw [Batch.markers, List.mem_cons, List.mem_append, List.mem_map, List.mem_singleton] at hm
  rcases hm with rfl | ⟨item, hitem, rfl⟩ | rfl
  · exact ⟨h.count, h.seqno, rfl⟩
  · exact h.items item hitem
  · exact hc.checksum _

theorem turn_start (itemCount : Nat) :
    (BatchReader.between seqno start).turn coding pos (.start itemCount seqno' .none) =
      .more (.inside coding seqno' start itemCount []) := rfl

theorem turn_item (count : Nat) (items : List Item) (entry : Item) :
    (BatchReader.inside coding seqno start (count + 1) items).turn coding pos (.item entry) =
      .more (.inside coding seqno start count (items ++ [entry])) := by
  simp [BatchReader.turn, BatchReader.inside, body]

theorem turn_finish (items : List Item) :
    (BatchReader.inside coding seqno start 0 items).turn coding pos
        (.finish (coding.xxh3 (body coding items))) =
      .batch (.between seqno pos) ⟨seqno, items⟩ := by
  simp [BatchReader.turn, BatchReader.inside, BatchReader.between]

theorem readAll_items (hc : coding.Lawful) {items : List Item} (hfits : ∀ item ∈ items, item.Fits)
    (more : Nat) (read : List Item) :
    readAll coding (.inside coding seqno start (more + items.length) read) pos
        (body coding items ++ rest) done =
      readAll coding (.inside coding seqno start more (read ++ items))
        (pos + (body coding items).length) rest done := by
  induction items generalizing read pos with
  | nil => simp [body]
  | cons item items ih =>
      have hbody : body coding (item :: items) =
          (Marker.item item).encode coding ++ body coding items := rfl
      have hitem : (Marker.item item).Fits := hfits item List.mem_cons_self
      rw [hbody, List.append_assoc, List.length_cons, ← Nat.add_assoc,
        readAll_more hc hitem (turn_item _ _ _),
        ih (fun i hi => hfits i (List.mem_cons_of_mem _ hi)), List.append_assoc, List.singleton_append,
        List.length_append, Nat.add_assoc]

theorem readAll_encode (hc : coding.Lawful) {batch : Batch} (h : batch.Fits) :
    readAll coding (.between seqno start) pos (batch.encode coding ++ rest) done =
      readAll coding (.between batch.seqno (pos + (batch.encode coding).length))
        (pos + (batch.encode coding).length) rest (done ++ [batch]) := by
  have hstart : (Marker.start batch.items.length batch.seqno .none).Fits := ⟨h.count, h.seqno, rfl⟩
  have hfinish : (Marker.finish (coding.xxh3 (body coding batch.items))).Fits := hc.checksum _
  have hitems : ∀ p rest, readAll coding (.inside coding batch.seqno start batch.items.length []) p
      (body coding batch.items ++ rest) done =
        readAll coding (.inside coding batch.seqno start 0 batch.items)
          (p + (body coding batch.items).length) rest done := by
    intro p rest
    have hread := @readAll_items coding p start batch.seqno rest done hc _ h.items 0 []
    rwa [Nat.zero_add, List.nil_append] at hread
  rw [encode_batch, List.append_assoc, readAll_more hc hstart (turn_start _), List.append_assoc,
    hitems, readAll_batch hc hfinish (turn_finish _)]
  simp only [List.length_append, Nat.add_assoc]

theorem readAll_encodeAll (hc : coding.Lawful) {batches : List Batch}
    (h : ∀ batch ∈ batches, batch.Fits) (seqno pos : Nat) (rest : Bytes) (done : List Batch) :
    ∃ seqno', readAll coding (.between seqno pos) pos (encodeAll coding batches ++ rest) done =
      readAll coding (.between seqno' (pos + (encodeAll coding batches).length))
        (pos + (encodeAll coding batches).length) rest (done ++ batches) := by
  induction batches generalizing seqno pos done with
  | nil => exact ⟨seqno, by simp [encodeAll]⟩
  | cons batch batches ih =>
      obtain ⟨seqno', hrest⟩ := ih (fun b hb => h b (List.mem_cons_of_mem _ hb)) batch.seqno
        (pos + (batch.encode coding).length) (done ++ [batch])
      refine ⟨seqno', ?_⟩
      have hall : encodeAll coding (batch :: batches) = batch.encode coding ++ encodeAll coding batches :=
        rfl
      rw [hall, List.append_assoc, readAll_encode hc (h batch List.mem_cons_self), hrest,
        List.length_append, Nat.add_assoc, List.append_assoc, List.singleton_append]

theorem readAll_zeros (hc : coding.Lawful) {reader : BatchReader} (k : Nat) :
    readAll coding reader pos (List.replicate k 0) done =
      .journal done (if reader.isInBatch then reader.lastValidPos else pos) := by
  apply readAll_end
  · have hfits : (Marker.finish 0).Fits := Nat.two_pow_pos 64
    have hreturns := returns_torn hc hfits 0 k
    rwa [List.take_zero, List.nil_append] at hreturns
  · exact fun m rest' => decode_zeros

theorem readAll_cut (hc : coding.Lawful) {reader : BatchReader} {m : Marker} (hm : m.Fits) {j : Nat}
    (hj : j < (m.encode coding).length) (k : Nat)
    (hpos : reader.isInBatch = false → pos = reader.lastValidPos)
    (hturn : ∀ m' p, m'.tag = m.tag → m'.tag ≠ .finish → ∃ reader', reader.turn coding p m' =
      .more reader' ∧ reader'.isInBatch = true ∧ reader'.lastValidPos = reader.lastValidPos) :
    readAll coding reader pos ((m.encode coding).take j ++ List.replicate k 0) done =
      .journal done reader.lastValidPos := by
  have hstop : (if reader.isInBatch then reader.lastValidPos else pos) = reader.lastValidPos := by
    cases hin : reader.isInBatch with
    | true => rfl
    | false => exact hpos hin
  cases hdec : Marker.decode coding ((m.encode coding).take j ++ List.replicate k 0) with
  | error e =>
      rw [readAll_end (returns_torn hc hm j k), hstop]
      intro m' rest' hok
      rw [hdec] at hok
      cases hok
  | ok entry =>
      obtain ⟨m', rest'⟩ := entry
      obtain ⟨htag, hfinish, k', rfl⟩ := decode_torn hc hm hj hdec
      obtain ⟨hm', heq⟩ := (decode_exact hc).iff.mp hdec
      obtain ⟨reader', hmore, hin, hlast⟩ := hturn m' (pos + (m'.encode coding).length) htag hfinish
      rw [heq, readAll_more hc hm' hmore, readAll_zeros hc, hin, hlast]
      rfl

theorem append_singleton_split {α : Type} {l before after : List α} {a m : α}
    (h : l ++ [a] = before ++ m :: after) :
    (l = before ∧ m = a) ∨ ∃ after', l = before ++ m :: after' := by
  rcases List.eq_nil_or_concat after with rfl | ⟨after', last, rfl⟩
  · obtain ⟨rfl, hm⟩ := List.append_inj' h rfl
    exact .inl ⟨rfl, (List.cons.inj hm).1.symm⟩
  · rw [List.concat_eq_append, ← List.cons_append, ← List.append_assoc] at h
    exact .inr ⟨after', (List.append_inj' h rfl).1⟩

theorem cut_batch {batch : Batch} {j : Nat} (hj : j < (batch.encode coding).length) :
    ∃ m j', m ∈ batch.markers coding ∧ j' < (m.encode coding).length ∧
      ((m.tag = .start ∧ (batch.encode coding).take j = (m.encode coding).take j') ∨
        ∃ items more, batch.items = items ++ more ∧ (m.tag = .item → more ≠ []) ∧ m.tag ≠ .start ∧
          (batch.encode coding).take j =
            (Marker.start batch.items.length batch.seqno .none).encode coding ++
              (body coding items ++ (m.encode coding).take j')) := by
  obtain ⟨before, piece, after, j', hpieces, hj', -, htake⟩ := cut_flatten hj
  obtain ⟨ms, ms', hms, rfl, hcons⟩ := List.map_eq_append_iff.mp hpieces
  obtain ⟨m, ms', rfl, rfl, -⟩ := List.map_eq_cons_iff.mp hcons
  have hmem : m ∈ batch.markers coding := hms ▸ List.mem_append_right _ List.mem_cons_self
  refine ⟨m, j', hmem, hj', ?_⟩
  rw [Batch.encode, htake]
  cases ms with
  | nil =>
      rw [Batch.markers, List.nil_append] at hms
      obtain ⟨rfl, -⟩ := List.cons.inj hms
      exact .inl ⟨rfl, rfl⟩
  | cons first ms =>
      rw [Batch.markers, List.cons_append] at hms
      obtain ⟨rfl, hrest⟩ := List.cons.inj hms
      refine .inr ?_
      rcases append_singleton_split hrest with ⟨hitems, rfl⟩ | ⟨ms'', hitems⟩
      · refine ⟨batch.items, [], (List.append_nil _).symm, fun h => ?_, fun h => ?_, ?_⟩
        · cases h
        · cases h
        · rw [List.map_cons, List.flatten_cons, ← hitems, encode_items, List.append_assoc]
      · obtain ⟨items, more, hsplit, hbefore, hmap⟩ := List.map_eq_append_iff.mp hitems
        obtain ⟨item, more, rfl, rfl, -⟩ := List.map_eq_cons_iff.mp hmap
        refine ⟨items, item :: more, hsplit, fun _ => List.cons_ne_nil _ _, fun h => ?_, ?_⟩
        · cases h
        · rw [List.map_cons, List.flatten_cons, ← hbefore, encode_items, List.append_assoc]

/-- A batch cut short is not handed out, and cut off. -/
theorem readAll_torn (hc : coding.Lawful) {batch : Batch} (h : batch.Fits) {j : Nat}
    (hj : j < (batch.encode coding).length) (k : Nat) :
    readAll coding (.between seqno pos) pos ((batch.encode coding).take j ++ List.replicate k 0) done =
      .journal done pos := by
  obtain ⟨m, j', hmem, hj', hcase⟩ := cut_batch hj
  have hm := markers_fit hc h m hmem
  rcases hcase with ⟨htag, htake⟩ | ⟨items, more, hsplit, hmore, htag, htake⟩
  · rw [htake]
    refine readAll_cut hc hm hj' k (fun _ => rfl) ?_
    intro m' p htag' _
    rw [htag] at htag'
    cases m' with
    | start itemCount seqno' compression => exact ⟨_, rfl, rfl, rfl⟩
    | item entry => cases htag'
    | finish checksum => cases htag'
  · have hstart : (Marker.start batch.items.length batch.seqno .none).Fits := ⟨h.count, h.seqno, rfl⟩
    have hfits : ∀ item ∈ items, item.Fits :=
      fun item hitem => h.items item (hsplit ▸ List.mem_append_left _ hitem)
    have hcount : batch.items.length = more.length + items.length := by
      rw [hsplit, List.length_append, Nat.add_comm]
    rw [htake, List.append_assoc, readAll_more hc hstart (turn_start _), List.append_assoc, hcount,
      readAll_items hc hfits, readAll_cut hc hm hj' k]
    · rfl
    · intro hin
      cases hin
    · intro m' p htag' hfinish
      cases m' with
      | start itemCount seqno' compression => exact absurd htag'.symm htag
      | finish checksum => exact absurd rfl hfinish
      | item entry =>
          obtain ⟨item, more, rfl⟩ := List.exists_cons_of_ne_nil (hmore htag'.symm)
          exact ⟨_, turn_item _ _ _, rfl, rfl⟩

theorem encodeAll_append (batches more : List Batch) :
    encodeAll coding (batches ++ more) = encodeAll coding batches ++ encodeAll coding more := by
  rw [encodeAll, List.map_append, List.flatten_append, encodeAll, encodeAll]

theorem encodeAll_singleton (batch : Batch) : encodeAll coding [batch] = batch.encode coding :=
  List.append_nil _

theorem encodeAll_take_le (coding : TreeCoding) (batches : List Batch) {m n : Nat} (h : m ≤ n) :
    (encodeAll coding (batches.take m)).length ≤ (encodeAll coding (batches.take n)).length := by
  obtain ⟨more, hmore⟩ := @List.take_prefix_take_left _ batches m n h
  rw [← hmore, encodeAll_append, List.length_append]
  exact Nat.le_add_right _ _

theorem readJournal_eq (file : Bytes) :
    readJournal coding file = readAll coding (.between 0 0) 0 file [] := rfl

theorem readJournal_encodeAll (hc : coding.Lawful) {batches : List Batch}
    (h : ∀ batch ∈ batches, batch.Fits) (k : Nat) :
    readJournal coding (encodeAll coding batches ++ List.replicate k 0) =
      .journal batches (encodeAll coding batches).length := by
  obtain ⟨seqno, hall⟩ := readAll_encodeAll hc h 0 0 (List.replicate k 0) []
  rw [readJournal_eq, hall, readAll_zeros hc, List.nil_append, Nat.zero_add]
  rfl

/-- A cut of a journal is as many whole batches as fit, and a part that the reader
cuts off again. -/
theorem cut_journal (hc : coding.Lawful) {batches : List Batch}
    (hfits : ∀ batch ∈ batches, batch.Fits) (n : Nat) :
    ∃ m part, m ≤ batches.length ∧
      (encodeAll coding batches).take n = encodeAll coding (batches.take m) ++ part ∧
      (encodeAll coding (batches.take m)).length ≤ n ∧
      (∀ m', m' ≤ batches.length → (encodeAll coding (batches.take m')).length ≤ n → m' ≤ m) ∧
      ∀ k seqno pos done, readAll coding (.between seqno pos) pos (part ++ List.replicate k 0) done =
        .journal done pos := by
  by_cases hn : n < (encodeAll coding batches).length
  · obtain ⟨before, piece, after, j, hpieces, hj, hlen, htake⟩ := cut_flatten hn
    obtain ⟨whole, more, rfl, rfl, hcons⟩ := List.map_eq_append_iff.mp hpieces
    obtain ⟨batch, later, rfl, rfl, -⟩ := List.map_eq_cons_iff.mp hcons
    have hbatch : batch.Fits := hfits batch (List.mem_append_right _ List.mem_cons_self)
    have hlen' : n = (encodeAll coding whole).length + j := hlen
    refine ⟨whole.length, (batch.encode coding).take j, by rw [List.length_append]; omega, ?_, ?_, ?_, ?_⟩
    · rw [List.take_left]
      exact htake
    · rw [List.take_left]
      omega
    · intro m' _ hfit
      apply Nat.le_of_not_lt
      intro hlt
      have hmono := encodeAll_take_le coding (whole ++ batch :: later) hlt
      have hnext : (whole ++ batch :: later).take (whole.length + 1) = whole ++ [batch] := by
        rw [List.append_cons, List.take_left' (by simp)]
      rw [hnext, encodeAll_append, List.length_append, encodeAll_singleton] at hmono
      omega
    · intro k seqno pos done
      exact readAll_torn hc hbatch hj k
  · refine ⟨batches.length, [], Nat.le_refl _, ?_, ?_, fun m' h _ => h, ?_⟩
    · rw [List.take_length, List.append_nil, List.take_of_length_le (Nat.le_of_not_lt hn)]
    · rw [List.take_length]
      exact Nat.le_of_not_lt hn
    · intro k seqno pos done
      rw [List.nil_append, readAll_zeros hc]
      rfl

/-- Whatever a crash leaves of a journal, with or without zeros behind it, the batches
read back are those that were written as a whole, and the file ends behind them. -/
theorem readJournal_cut (hc : coding.Lawful) {batches : List Batch}
    (hfits : ∀ batch ∈ batches, batch.Fits) (n k : Nat) :
    ∃ m, m ≤ batches.length ∧
      readJournal coding ((encodeAll coding batches).take n ++ List.replicate k 0) =
        .journal (batches.take m) (encodeAll coding (batches.take m)).length ∧
      (encodeAll coding (batches.take m)).length ≤ n ∧
      ∀ m', m' ≤ batches.length → (encodeAll coding (batches.take m')).length ≤ n → m' ≤ m := by
  obtain ⟨m, part, hm, htake, hlen, hmax, hpart⟩ := cut_journal hc hfits n
  refine ⟨m, hm, ?_, hlen, hmax⟩
  have hwhole : ∀ batch ∈ batches.take m, batch.Fits :=
    fun batch hbatch => hfits batch (List.mem_of_mem_take hbatch)
  obtain ⟨seqno, hall⟩ := readAll_encodeAll hc hwhole 0 0 (part ++ List.replicate k 0) []
  rw [readJournal_eq, htake, List.append_assoc, hall, hpart, List.nil_append, Nat.zero_add]

end Batches

section Accepted

variable {coding : TreeCoding}

inductive Midway (coding : TreeCoding) : BatchReader → Nat → Bytes → Prop
  | between (seqno pos : Nat) : Midway coding (.between seqno pos) pos []
  | inside (seqno pos count : Nat) (items : List Item) (hseqno : seqno < 2 ^ 64)
      (hcount : items.length + count < 2 ^ 32) (hitems : ∀ item ∈ items, item.Fits) :
      Midway coding (.inside coding seqno pos count items) pos
        ((Marker.start (items.length + count) seqno .none).encode coding ++ body coding items)

theorem Midway.stop {reader : BatchReader} {pos : Nat} {part : Bytes}
    (h : Midway coding reader pos part) :
    (if reader.isInBatch then reader.lastValidPos else pos + part.length) = pos := by
  cases h with
  | between seqno pos => rfl
  | inside seqno pos count items => rfl

/-- What a marker does to a reader midway: it goes on, ends a batch that is as it was
written, ends the journal, or fails. -/
theorem Midway.turn {reader : BatchReader} {pos : Nat} {part : Bytes}
    (h : Midway coding reader pos part) {m : Marker} (hm : m.Fits) (next : Nat) :
    (∃ reader', reader.turn coding next m = .more reader' ∧
        Midway coding reader' pos (part ++ m.encode coding)) ∨
      (∃ seqno batch, reader.turn coding next m = .batch (.between seqno next) batch ∧ batch.Fits ∧
        batch.encode coding = part ++ m.encode coding) ∨
      (reader.turn coding next m = .discard ∧ reader.lastValidPos = pos) ∨
      ∃ error, reader.turn coding next m = .fail error := by
  cases h with
  | between seqno pos =>
      cases m with
      | start itemCount seqno' compression =>
          obtain ⟨hcount, hseqno, rfl⟩ := hm
          have hmid := @Midway.inside coding seqno' pos itemCount [] hseqno
            (by rwa [List.length_nil, Nat.zero_add]) (fun item hitem => absurd hitem List.not_mem_nil)
          rw [List.length_nil, Nat.zero_add] at hmid
          refine .inl ⟨_, turn_start _, ?_⟩
          rw [List.nil_append]
          simpa [body] using hmid
      | item entry => exact .inr (.inr (.inl ⟨rfl, rfl⟩))
      | finish checksum => exact .inr (.inr (.inl ⟨rfl, rfl⟩))
  | inside seqno pos count items hseqno hcount hitems =>
      cases m with
      | start itemCount seqno' compression => exact .inr (.inr (.inl ⟨rfl, rfl⟩))
      | item entry =>
          cases count with
          | zero => exact .inr (.inr (.inr ⟨_, rfl⟩))
          | succ count =>
              have hlength : (items ++ [entry]).length + count = items.length + (count + 1) := by
                rw [List.length_append, List.length_singleton]
                omega
              have hmid := @Midway.inside coding seqno pos count (items ++ [entry]) hseqno
                (by rwa [hlength]) (by simpa [or_imp, forall_and] using ⟨hitems, hm⟩)
              rw [hlength, body_append, ← List.append_assoc] at hmid
              refine .inl ⟨_, turn_item _ _ _, ?_⟩
              simpa [body, Marker.encode] using hmid
      | finish checksum =>
          cases count with
          | succ count => exact .inr (.inr (.inr ⟨_, rfl⟩))
          | zero =>
              by_cases hsum : coding.xxh3 (body coding items) = checksum
              · subst hsum
                refine .inr (.inl ⟨_, _, turn_finish _, ⟨hseqno, hcount, hitems⟩, ?_⟩)
                rw [encode_batch, List.append_assoc]
                rfl
              · refine .inr (.inr (.inr ⟨.checksumMismatch, ?_⟩))
                simp [BatchReader.turn, BatchReader.inside, hsum]

structure Accepted (coding : TreeCoding) (file : Bytes) (batches : List Batch) (length : Nat) :
    Prop where
  fits : ∀ batch ∈ batches, batch.Fits
  length : length = (encodeAll coding batches).length
  file : encodeAll coding batches <+: file

theorem readBatches_accepted (hc : coding.Lawful) {fuel : Nat} {reader : BatchReader}
    {part rest : Bytes} {done batches : List Batch} {length : Nat}
    (hmid : Midway coding reader (encodeAll coding done).length part)
    (hdone : ∀ batch ∈ done, batch.Fits)
    (h : readBatches coding fuel reader ((encodeAll coding done).length + part.length) rest done =
      .journal batches length) :
    Accepted coding (encodeAll coding done ++ (part ++ rest)) batches length := by
  induction fuel generalizing reader part rest done with
  | zero => cases h
  | succ fuel ih =>
      have hcut : ∀ {l}, Recovered.journal done l = .journal batches length →
          l = (encodeAll coding done).length →
          Accepted coding (encodeAll coding done ++ (part ++ rest)) batches length := by
        intro l heq hl
        obtain ⟨rfl, rfl⟩ := Recovered.journal.inj heq
        exact ⟨hdone, hl, List.prefix_append _ _⟩
      rw [readBatches] at h
      cases hdec : Marker.decode coding rest with
      | error e =>
          rw [hdec] at h
          cases e with
          | panicked message => cases h
          | unexpectedEof => exact hcut h hmid.stop
          | invalidTag name value => exact hcut h hmid.stop
          | invalidTrailer => exact hcut h hmid.stop
          | utf8 => exact hcut h hmid.stop
      | ok entry =>
          obtain ⟨marker, rest'⟩ := entry
          obtain ⟨hm, rfl⟩ := (decode_exact hc).iff.mp hdec
          have hlen := (decode_marker hc hm rest').2.2
          rw [hdec] at h
          simp only [hlen] at h
          have hturn := hmid.turn hm ((encodeAll coding done).length + part.length +
            (marker.encode coding).length)
          rcases hturn with ⟨reader', hturn, hmid'⟩ | ⟨seqno, batch, hturn, hbatch, henc⟩ |
            ⟨hturn, hpos⟩ | ⟨error, hturn⟩
          · rw [hturn, Nat.add_assoc, ← List.length_append] at h
            rw [← List.append_assoc part]
            exact ih hmid' hdone h
          · have hall : encodeAll coding (done ++ [batch]) =
                encodeAll coding done ++ (part ++ marker.encode coding) := by
              rw [encodeAll_append, encodeAll_singleton, henc]
            have hlength := congrArg List.length hall
            rw [List.length_append, List.length_append, ← Nat.add_assoc] at hlength
            rw [hturn, ← hlength] at h
            have haccepted := ih (.between seqno _)
              (by simpa [or_imp, forall_and] using ⟨hdone, hbatch⟩) h
            rw [hall, List.nil_append, List.append_assoc, List.append_assoc] at haccepted
            exact haccepted
          · rw [hturn] at h
            exact hcut h hpos
          · rw [hturn] at h
            cases h

/-- What recovery accepts of any file is what it leaves of it: a journal of exactly the
batches it hands out, as the format encodes them, and so as the writer writes them if
each has an item. Such a journal can be read again, also with further batches behind it. -/
theorem readJournal_accepted (hc : coding.Lawful) {file : Bytes} {batches : List Batch} {length : Nat}
    (h : readJournal coding file = .journal batches length) :
    file.take length = encodeAll coding batches ∧
      ((∀ batch ∈ batches, batch.items ≠ []) → file.take length = writeAll coding batches) ∧
      (∀ batch ∈ batches, batch.Fits) ∧
      ∀ more : List Batch, (∀ batch ∈ more, batch.Fits) →
        readJournal coding (file.take length ++ encodeAll coding more) =
          .journal (batches ++ more) (length + (encodeAll coding more).length) := by
  have hnone : ∀ batch ∈ ([] : List Batch), batch.Fits := fun b hb => absurd hb List.not_mem_nil
  obtain ⟨hfits, rfl, hfile⟩ : Accepted coding file batches length :=
    @readBatches_accepted coding hc _ _ [] file [] _ _ (.between 0 0) hnone h
  rw [List.prefix_iff_eq_take] at hfile
  have htake : List.take (encodeAll coding batches).length file = encodeAll coding batches := hfile.symm
  refine ⟨htake, fun hitems => htake.trans (writeAll_eq hitems).symm, hfits, ?_⟩
  intro more hmore
  have hall : ∀ batch ∈ batches ++ more, batch.Fits := by
    simpa [or_imp, forall_and] using ⟨hfits, hmore⟩
  have hread := readJournal_encodeAll hc hall 0
  rw [List.replicate_zero, List.append_nil, encodeAll_append, List.length_append] at hread
  rw [htake]
  exact hread

def plainCoding : TreeCoding where
  valueTypeByte := fun
    | .value => 0
    | .tombstone => 1
    | .weakTombstone => 2
  valueTypeOf := fun b =>
    if b = 0 then some .value
    else if b = 1 then some .tombstone
    else if b = 2 then some .weakTombstone
    else none
  encodeCompression := fun
    | .none => [0, 0]
    | .other => [1, 0]
  decodeCompression := fun
    | [] => .error .unexpectedEof
    | [_] => .error .unexpectedEof
    | b :: c :: rest =>
        if b = 0 then
          if c = 0 then .ok (.none, rest) else .error (.panicked "Invalid compression")
        else if b = 1 ∨ b = 2 then .ok (.other, rest)
        else .error (.invalidTag "CompressionType" b)
  xxh3 := fun _ => 16106434480403282480

theorem plainCoding_lawful : plainCoding.Lawful where
  valueType := by
    intro b t
    simp only [plainCoding]
    constructor
    · intro h
      split at h
      · cases h; symm; assumption
      · split at h
        · cases h; symm; assumption
        · split at h
          · cases h; symm; assumption
          · cases h
    · rintro rfl
      cases t <;> rfl
  compression := by
    intro x rest
    rcases x with _ | ⟨b, _ | ⟨c, x⟩⟩
    · simp [plainCoding]
    · simp [plainCoding]
    · by_cases hb : b = 0
      · by_cases hc : c = 0
        · simp [plainCoding, hb, hc]
        · simp [plainCoding, hb, hc]
      · by_cases hother : b = 1 ∨ b = 2
        · simp [plainCoding, hb, hother]
        · simp [plainCoding, hb, hother]
  zeros := by
    intro b hb
    simpa [plainCoding] using hb
  other := by
    intro x rest h
    rcases x with _ | ⟨b, _ | ⟨c, x⟩⟩
    · cases h
    · cases h
    · refine ⟨b, List.mem_cons_self, ?_⟩
      rintro rfl
      by_cases hc : c = 0
      · simp [plainCoding, hc] at h
      · simp [plainCoding, hc] at h
  panicked := by
    intro x message h
    rcases x with _ | ⟨b, _ | ⟨c, x⟩⟩
    · cases h
    · cases h
    · by_cases hb : b = 0
      · refine ⟨c, by simp, ?_⟩
        rintro rfl
        simp [plainCoding, hb] at h
      · exact ⟨b, List.mem_cons_self, hb⟩
  checksum := by
    intro x
    simp [plainCoding]

def plainBatch : Batch := ⟨0, [⟨"p", [1], [2], .value⟩]⟩

theorem plainBatch_fits : ∀ batch ∈ [plainBatch], batch.Fits := by
  intro batch h
  obtain rfl := List.mem_singleton.mp h
  refine ⟨by decide, by decide, ?_⟩
  intro item hitem
  obtain rfl := List.mem_singleton.mp hitem
  exact ⟨by decide +kernel, by decide, by decide⟩

/-- A batch cut in its item, with zeros behind it, is cut off. -/
theorem readJournal_cut_plain : ∃ m, m ≤ [plainBatch].length ∧
    readJournal plainCoding ((encodeAll plainCoding [plainBatch]).take 20 ++ List.replicate 9 0) =
      .journal ([plainBatch].take m) (encodeAll plainCoding ([plainBatch].take m)).length ∧
    (encodeAll plainCoding ([plainBatch].take m)).length ≤ 20 ∧
    ∀ m', m' ≤ [plainBatch].length →
      (encodeAll plainCoding ([plainBatch].take m')).length ≤ 20 → m' ≤ m :=
  readJournal_cut plainCoding_lawful plainBatch_fits 20 9

def plainFile : Bytes :=
  [1, 0, 0, 0, 1, 0, 0, 0, 0, 0, 0, 0, 0, 0, 0, 2, 0, 1, 112, 0, 1, 1, 0, 0, 0, 1, 2,
    3, 223, 133, 140, 211, 10, 138, 122, 48, 70, 74, 76, 2, 7]

theorem readJournal_plainFile :
    readJournal plainCoding plainFile = .journal [plainBatch] 40 := by decide +kernel

theorem readJournal_accepted_plain :
    plainFile.take 40 = encodeAll plainCoding [plainBatch] ∧
      ((∀ batch ∈ [plainBatch], batch.items ≠ []) → plainFile.take 40 = writeAll plainCoding [plainBatch]) ∧
      (∀ batch ∈ [plainBatch], batch.Fits) ∧
      ∀ more : List Batch, (∀ batch ∈ more, batch.Fits) →
        readJournal plainCoding (plainFile.take 40 ++ encodeAll plainCoding more) =
          .journal ([plainBatch] ++ more) (40 + (encodeAll plainCoding more).length) :=
  readJournal_accepted plainCoding_lawful readJournal_plainFile

end Accepted

end Nightfrost.JournalReader
