import Nightfrost.Listings

namespace Nightfrost.PrefixRanges

open ByteOrder Tables Schema Cursors Listings

def prefixBound (p : Bytes) : Bound :=
  match prefixEnd p with
  | some e => .excluded e
  | none => .unbounded

section Order

variable {p k e e' : Bytes}

theorem prefixEnd_none : prefixEnd p = none ↔ ∀ b ∈ p, b = 255 := by
  induction p with
  | nil => exact ⟨fun _ b hb => absurd hb List.not_mem_nil, fun _ => rfl⟩
  | cons a p ih =>
      rw [prefixEnd_cons, List.forall_mem_cons, ← ih]
      cases hend : prefixEnd p with
      | some e => simp
      | none =>
          by_cases ha : a = 255
          · simp [ha]
          · simp [ha]

theorem le_of_prefixed (h : p <+: k) : (compare p k).isLE := by
  obtain ⟨rest, rfl⟩ := h
  exact isLE_append p rest

theorem prefixed_iff :
    p <+: k ↔ (compare p k).isLE ∧ (prefixEnd p = none ∨ ∃ e, prefixEnd p = some e ∧ compare k e = .lt) := by
  constructor
  · intro h
    refine ⟨le_of_prefixed h, ?_⟩
    cases he : prefixEnd p with
    | none => exact .inl rfl
    | some e => exact .inr ⟨e, rfl, below_prefixEnd h he⟩
  · rintro ⟨hle, hbelow⟩
    by_contra hno
    obtain ⟨-, e, he, hge⟩ := beyond_unprefixed hle hno
    rcases hbelow with hnone | ⟨e', he', hlt⟩
    · rw [he] at hnone
      cases hnone
    · rw [he] at he'
      obtain rfl := Option.some.inj he'
      exact hge hlt

theorem prefixEnd_least (he : prefixEnd p = some e) (habove : ∀ y, compare (p ++ y) e' = .lt) :
    (compare e e').isLE := by
  by_contra hgt
  have hbelow : compare e' e = .lt := by
    rw [Std.OrientedOrd.eq_swap]
    cases hcmp : compare e e' with
    | lt => exact absurd (by rw [hcmp]; rfl) hgt
    | eq => exact absurd (by rw [hcmp]; rfl) hgt
    | gt => rfl
  have hle : (compare p e').isLE := by
    have hself := habove []
    rw [List.append_nil] at hself
    rw [hself]
    rfl
  obtain ⟨y, rfl⟩ := prefixed_iff.mpr ⟨hle, .inr ⟨e, he, hbelow⟩⟩
  have hself := habove y
  rw [Std.ReflOrd.compare_self] at hself
  cases hself

theorem prefixBound_below : (prefixBound p).below k = true ↔
    prefixEnd p = none ∨ ∃ e, prefixEnd p = some e ∧ compare k e = .lt := by
  rw [prefixBound]
  cases he : prefixEnd p with
  | none => simp [Bound.below]
  | some e => simp [Bound.below]

end Order

section Scans

variable {V : Type}

theorem range_prefixed (t : Table V) (p : Bytes) : range t (.included p) (prefixBound p) = scanPrefix t p := by
  rw [range, scanPrefix]
  apply List.filter_congr
  intro row _
  rw [Bool.eq_iff_iff, Bool.and_eq_true, prefixBound_below, List.isPrefixOf_iff_prefix, prefixed_iff]
  rfl

variable {Row : Type} {l : Listing Row}

theorem entries_prefixed (hstart : l.start = none) (s : Store) :
    l.entries .asc none s = scanPrefix (s l.part) l.keyPrefix ∧
      l.entries .desc none s = (scanPrefix (s l.part) l.keyPrefix).reverse := by
  have hlower : l.lower = .included l.keyPrefix := by
    rw [Listing.lower, hstart]
  have hupper : l.upper = prefixBound l.keyPrefix := rfl
  unfold Listing.entries
  rw [hlower, hupper, range_prefixed]
  exact ⟨rfl, rfl⟩

end Scans

/-- The end of a prefix is the least byte string above every key with the prefix. -/
theorem prefixEnd_exact (p : Bytes) :
    (∀ k, p <+: k ↔ (compare p k).isLE ∧
      (prefixEnd p = none ∨ ∃ e, prefixEnd p = some e ∧ compare k e = .lt)) ∧
    (prefixEnd p = none ↔ ∀ b ∈ p, b = 255) ∧
    (∀ e, prefixEnd p = some e → (∀ y, compare (p ++ y) e = .lt) ∧
      ∀ e', (∀ y, compare (p ++ y) e' = .lt) → (compare e e').isLE) ∧
    ∀ (V : Type) (t : Table V), range t (.included p) (prefixBound p) = scanPrefix t p := by
  refine ⟨fun k => prefixed_iff, prefixEnd_none, fun e he => ⟨fun y => ?_, fun e' => ?_⟩, fun V t => ?_⟩
  · exact below_prefixEnd (List.prefix_append p y) he
  · exact prefixEnd_least he
  · exact range_prefixed t p

end Nightfrost.PrefixRanges
