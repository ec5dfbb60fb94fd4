import TypedWire.Registry
import Mathlib.Data.List.Nodup

namespace TypedWire.Registry

variable {t u : Ty} {inst : Instance t} {entries : List ((t : Ty) × Instance t)}

theorem find?_cons_self (inst : Instance t) (rest : List ((t : Ty) × Instance t)) :
    find? t (⟨t, inst⟩ :: rest) = some inst := by
  simp [find?]

theorem find?_cons_of_ne (inst : Instance t) (different : t ≠ u) (rest : List ((t : Ty) × Instance t)) :
    find? u (⟨t, inst⟩ :: rest) = find? u rest := by
  simp [find?, different]

@[simp] theorem find?_put_self (inst : Instance t) (entries : List ((t : Ty) × Instance t)) :
    find? t (put inst entries) = some inst := by
  induction entries with
  | nil => exact find?_cons_self inst []
  | cons entry rest ih =>
    obtain ⟨v, held⟩ := entry
    by_cases same : v = t
    · simp [put, same, find?_cons_self]
    · simp [put, same, find?_cons_of_ne held same, ih]

/-- What other types have stays as it is. -/
theorem find?_put_of_ne (inst : Instance t) (entries : List ((t : Ty) × Instance t)) (different : u ≠ t) :
    find? u (put inst entries) = find? u entries := by
  induction entries with
  | nil => exact find?_cons_of_ne inst (Ne.symm different) []
  | cons entry rest ih =>
    obtain ⟨v, held⟩ := entry
    by_cases same : v = t
    · subst same
      rw [put, if_pos rfl, find?_cons_of_ne _ (Ne.symm different), find?_cons_of_ne _ (Ne.symm different)]
    · rw [put, if_neg same]
      by_cases found : v = u
      · subst found
        rw [find?_cons_self, find?_cons_self]
      · rw [find?_cons_of_ne held found, find?_cons_of_ne held found, ih]

/-- The types that have an instance. -/
def types (registry : Registry) : List Ty := registry.entries.map (·.1)

theorem find?_ne_none_iff : find? u entries ≠ none ↔ u ∈ entries.map (·.1) := by
  induction entries with
  | nil => simp [find?]
  | cons entry rest ih =>
    obtain ⟨v, held⟩ := entry
    by_cases same : v = u
    · subst same
      simp [find?_cons_self]
    · simp [find?_cons_of_ne held same, ih, Ne.symm same]

theorem mem_types_iff {registry : Registry} : u ∈ registry.types ↔ registry.lookup u ≠ none :=
  find?_ne_none_iff.symm

theorem keys_put (inst : Instance t) (entries : List ((t : Ty) × Instance t)) :
    (put inst entries).map (·.1) =
      if t ∈ entries.map (·.1) then entries.map (·.1) else entries.map (·.1) ++ [t] := by
  induction entries with
  | nil => rfl
  | cons entry rest ih =>
    by_cases same : entry.1 = t
    · simp [put, same]
    · by_cases later : t ∈ rest.map (·.1)
      · rw [if_pos later] at ih
        simp [put, same, ih, List.mem_cons_of_mem _ later]
      · rw [if_neg later] at ih
        simp only [put, same, if_false, List.map_cons, ih, List.mem_cons, Ne.symm same, later, or_self]
        rfl

theorem mem_keys_put : u ∈ (put inst entries).map (·.1) ↔ u = t ∨ u ∈ entries.map (·.1) := by
  rw [keys_put]
  by_cases there : t ∈ entries.map (·.1)
  · rw [if_pos there]
    constructor
    · exact .inr
    · rintro (rfl | member)
      · exact there
      · exact member
  · rw [if_neg there, List.mem_append, List.mem_singleton, or_comm]

theorem find?_put_ne_none_iff : find? u (put inst entries) ≠ none ↔ u = t ∨ find? u entries ≠ none := by
  rw [find?_ne_none_iff, mem_keys_put, find?_ne_none_iff]

/-- The table keeps at most one instance for each type. -/
theorem nodup_keys_put (distinct : (entries.map (·.1)).Nodup) : ((put inst entries).map (·.1)).Nodup := by
  rw [keys_put]
  by_cases there : t ∈ entries.map (·.1)
  · rwa [if_pos there]
  · rw [if_neg there]
    exact List.nodup_append_comm.mp (List.nodup_cons.mpr ⟨there, distinct⟩)

theorem length_le_put (inst : Instance t) (entries : List ((t : Ty) × Instance t)) :
    entries.length ≤ (put inst entries).length := by
  have keys := congrArg List.length (keys_put inst entries)
  rw [List.length_map] at keys
  by_cases there : t ∈ entries.map (·.1)
  · simp [keys, there]
  · simp [keys, there]

/-- What a count shows that has gone up `n` times. -/
def counted (n : Nat) : Nat := min n (UInt64.size - 1)

theorem countUp_counted (n : Nat) : countUp (counted n) = counted (n + 1) := by
  simp only [countUp, counted]
  omega

/-- Up to the greatest 64-bit number, a count is exact. -/
theorem counted_eq {n : Nat} (small : n < UInt64.size) : counted n = n := by
  simp only [counted]
  omega

end TypedWire.Registry
