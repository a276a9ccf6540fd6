import Nightfrost.DenseIds
import Nightfrost.Scripts

namespace Nightfrost.Offline

open ByteOrder Tables Partitions Domain Schema WriteBlock Scripts DenseIds

inductive Fault
  | error (message : String)
  | panic

abbrev Job (α : Type) := Script Store Fault α

def commitEvery : Nat := 1000

def commitBatch (batch : StoreBatch) : Job Unit := change (fun s => commit s batch)

section Equality

variable {V : Type}

theorem ext_keys {t u : Table Unit} (h : ∀ k : Bytes, k ∈ t ↔ k ∈ u) : t = u := by
  apply ext_get
  intro k
  have hk := h k
  rw [mem_unit_iff, mem_unit_iff] at hk
  cases ht : t[k]? with
  | none =>
      cases hu : u[k]? with
      | none => rfl
      | some v =>
          rw [hk.mpr hu] at ht
          cases ht
  | some v => exact (hk.mp ht).symm

theorem ext_indexed {t u : Table V} {entries : List V} (ht : Indexed t entries)
    (hu : Indexed u entries) : t = u := by
  apply ext_get
  intro k
  apply Option.ext
  intro v
  rw [ht.get_iff, hu.get_iff]

end Equality

end Nightfrost.Offline
