import TypedWire.Proofs.Gathering

/-! Of elements that are equal to each other, a set keeps the first that it takes in; what a map holds under
a key is what arrived last, laid over what was there. This tells two containers apart as far as can be told
from outside. -/

namespace TypedWire

variable {α β κ : Type}

/-- An entry laid over another one under the same key: the key below stays, with the value above. -/
def overlay (below above : Option (κ × β)) : Option (κ × β) :=
  match below, above with
  | none, above => above
  | below, none => below
  | some old, some new => some (old.1, new.2)

@[simp] theorem overlay_none_left (above : Option (κ × β)) : overlay none above = above := rfl

@[simp] theorem overlay_none_right (below : Option (κ × β)) : overlay below none = below := by
  cases below <;> rfl

@[simp] theorem overlay_some (old new : κ × β) : overlay (some old) (some new) = some (old.1, new.2) := rfl

theorem overlay_assoc (a b c : Option (κ × β)) : overlay (overlay a b) c = overlay a (overlay b c) := by
  cases a <;> cases b <;> cases c <;> rfl

/-- Where taking in an element finds what is found with that element behind the others, taking in elements finds what
is found first among them. -/
private theorem find?_foldl {put : List α → α → List α} {wanted : α → Bool} (Fit : List α → Prop) (start : Fit [])
    (keeps : ∀ {set : List α} {x : α}, Fit set → Fit (put set x))
    (step : ∀ {set : List α} {x : α}, Fit set → (put set x).find? wanted = (set ++ [x]).find? wanted)
    (elements : List α) : (elements.foldl put []).find? wanted = elements.find? wanted := by
  suffices general : ∀ done : List α, Fit done →
      (elements.foldl put done).find? wanted = (done ++ elements).find? wanted from general [] start
  induction elements with
  | nil => simp
  | cons x rest ih =>
    intro done fit
    rw [List.foldl_cons, ih _ (keeps fit), List.find?_append, step fit, ← List.find?_append, List.append_assoc,
      List.singleton_append]

namespace Sorted

variable {order : κ → κ → Ordering} [Std.TransCmp order]

private theorem find?_above {key : α → κ} {elements : List α} {x z : κ} (level : order z x = .eq)
    (above : ∀ y ∈ elements, order x (key y) = .lt) : elements.find? (fun y => order z (key y) == .eq) = none := by
  refine List.find?_eq_none.mpr fun y member => ?_
  simp [Std.TransCmp.lt_of_eq_of_lt level (above y member)]

/-- What is found first in an increasing list that took in an element is what is found first in the list with that
element behind it. -/
theorem find?_insert {elements : List κ} (increasing : Increasing order elements) (x z : κ) :
    (insert order x elements).find? (fun y => order z y == .eq) =
      (elements ++ [x]).find? fun y => order z y == .eq := by
  induction elements with
  | nil => rfl
  | cons y rest ih =>
    obtain ⟨first, later⟩ := List.pairwise_cons.mp increasing
    unfold insert
    cases compared : order x y with
    | lt =>
      -- All that stands behind the new element is above it, so none of its class is there.
      rw [List.find?_append]
      by_cases level : order z x = .eq
      · have above : ∀ w ∈ y :: rest, order x w = .lt :=
          List.forall_mem_cons.mpr ⟨compared, fun w member => Std.TransCmp.lt_trans compared (first w member)⟩
        have missing : (y :: rest).find? (fun w => order z w == .eq) = none := find?_above level above
        simp [missing, level]
      · simp [level]
    | eq =>
      have congr : order z x = order z y := Std.TransCmp.congr_right compared
      rw [List.find?_append]
      by_cases level : order z y = .eq
      · simp [level]
      · simp [congr, level]
    | gt => simp only [List.cons_append, List.find?_cons, ih later]

/-- What is found in a set that took in elements is what is found first among them. -/
theorem find?_foldl_insert (elements : List κ) (z : κ) :
    (elements.foldl (fun set x => insert order x set) []).find? (fun y => order z y == .eq) =
      elements.find? fun y => order z y == .eq :=
  find?_foldl (Increasing order) .nil insert_increasing (fun increasing => find?_insert increasing _ z) elements

/-- What an increasing list holds under a key after it took in an entry is that entry laid over what it held. -/
theorem find?_insertEntry {entries : List (κ × β)} (increasing : Increasing (byKey order) entries)
    (entry : κ × β) (z : κ) :
    (insertEntry order entry.1 entry.2 entries).find? (fun e => order z e.1 == .eq) =
      overlay (entries.find? fun e => order z e.1 == .eq) ([entry].find? fun e => order z e.1 == .eq) := by
  induction entries with
  | nil => rfl
  | cons e rest ih =>
    obtain ⟨first, later⟩ := List.pairwise_cons.mp increasing
    unfold insertEntry
    cases compared : order entry.1 e.1 with
    | lt =>
      by_cases level : order z entry.1 = .eq
      · have above : ∀ w ∈ e :: rest, order entry.1 w.1 = .lt :=
          List.forall_mem_cons.mpr ⟨compared, fun w member => Std.TransCmp.lt_trans compared (first w member)⟩
        simp [find?_above level above, level]
      · simp [level, List.find?_cons]
    | eq =>
      have congr : order z entry.1 = order z e.1 := Std.TransCmp.congr_right compared
      by_cases level : order z e.1 = .eq
      · simp [congr, level]
      · simp [congr, level]
    | gt =>
      by_cases level : order z e.1 = .eq
      · have apart : order z entry.1 ≠ .eq := by
          rw [Std.TransCmp.congr_left level, Std.OrientedCmp.lt_of_gt compared]
          decide
        simp [level, apart]
      · simp [level, List.find?_cons, ih later]

end Sorted

namespace Hashed

variable {same : κ → κ → Bool} (equivalence : Equivalence fun a b => same a b = true)
include equivalence

private theorem congr_right {a b : κ} (equal : same a b = true) (c : κ) : same c a = same c b := by
  rw [Bool.eq_iff_iff]
  exact ⟨fun there => equivalence.trans there equal, fun there => equivalence.trans there (equivalence.symm equal)⟩

theorem find?_insert (elements : List κ) (x z : κ) :
    (insert same x elements).find? (same z) = (elements ++ [x]).find? (same z) := by
  unfold insert
  by_cases there : elements.any (same x) = true
  · rw [if_pos there, List.find?_append]
    obtain ⟨y, member, equal⟩ := List.any_eq_true.mp there
    by_cases level : same z x = true
    · have found : (elements.find? (same z)).isSome = true :=
        List.find?_isSome.mpr ⟨y, member, equivalence.trans level equal⟩
      rw [Option.or_of_isSome found]
    · simp [level]
  · rw [if_neg there]

theorem find?_foldl_insert (elements : List κ) (z : κ) :
    (elements.foldl (fun set x => insert same x set) []).find? (same z) = elements.find? (same z) :=
  find?_foldl (fun _ => True) trivial (fun _ => trivial) (fun _ => find?_insert equivalence _ _ z) elements

theorem find?_insertEntry (entries : List (κ × β)) (entry : κ × β) (z : κ) :
    (insertEntry same entry.1 entry.2 entries).find? (fun e => same z e.1) =
      overlay (entries.find? fun e => same z e.1) ([entry].find? fun e => same z e.1) := by
  induction entries with
  | nil => rfl
  | cons e rest ih =>
    unfold insertEntry
    by_cases found : same entry.1 e.1 = true
    · have congr : same z entry.1 = same z e.1 := congr_right equivalence found z
      by_cases level : same z e.1 = true
      · simp [found, congr, level]
      · simp [found, congr, level]
    · by_cases level : same z e.1 = true
      · have apart : ¬same z entry.1 = true := fun there =>
          found (equivalence.trans (equivalence.symm there) level)
        simp [found, level, apart]
      · simp [found, level, List.find?_cons, ih]

end Hashed

namespace Ty

theorem equivalence_equal {t : Ty} (ordered : t.Ordered) : Equivalence fun a b => t.equal a b = true where
  refl a := (equal_iff_order t ordered a a).mpr (t.order_self a)
  symm {a b} same := by rwa [equal_comm ordered]
  trans {a b c} first second := by
    rw [equal_iff_order t ordered] at first second ⊢
    exact Std.TransCmp.eq_trans first second

end Ty

namespace MapShape

variable {shape : MapShape} {k : Ty}

/-- Whether a map of the shape takes two keys for one. -/
def level (shape : MapShape) (k : Ty) (a b : k.Value) : Bool :=
  match shape with
  | .sorted => k.order a b == .eq
  | .hashed => k.equal a b

/-- The first entry under a key; of a map, the entry that it holds there. -/
def entryAt? (shape : MapShape) (k : Ty) (key : k.Value) (entries : List (k.Value × β)) : Option (k.Value × β) :=
  entries.find? fun entry => shape.level k key entry.1

/-- What entries that arrive one after the other come to under a key: the key that came first, with the value that
came last. -/
def merged? (shape : MapShape) (k : Ty) (key : k.Value) (entries : List (k.Value × β)) :
    Option (k.Value × β) := do
  let first ← shape.entryAt? k key entries
  let last ← shape.entryAt? k key entries.reverse
  return (first.1, last.2)

theorem merged?_cons (shape : MapShape) (key : k.Value) (entry : k.Value × β) (entries : List (k.Value × β)) :
    shape.merged? k key (entry :: entries) = overlay (shape.entryAt? k key [entry]) (shape.merged? k key entries) := by
  have alike : shape.entryAt? k key entries = none ↔ shape.entryAt? k key entries.reverse = none := by
    simp [entryAt?]
  have back : shape.entryAt? k key (entry :: entries).reverse =
      (shape.entryAt? k key entries.reverse).or (shape.entryAt? k key [entry]) := by
    rw [List.reverse_cons]
    exact List.find?_append
  unfold merged?
  rw [back]
  by_cases level : shape.level k key entry.1 = true
  · have here (others : List (k.Value × β)) : shape.entryAt? k key (entry :: others) = some entry :=
      List.find?_cons_of_pos level
    rw [here, here]
    cases first : shape.entryAt? k key entries with
    | none =>
      rw [alike.mp first]
      rfl
    | some found =>
      cases last : shape.entryAt? k key entries.reverse with
      | none => cases first.symm.trans (alike.mpr last)
      | some found' => rfl
  · have apart (others : List (k.Value × β)) : shape.entryAt? k key (entry :: others) = shape.entryAt? k key others :=
      List.find?_cons_of_neg level
    rw [apart, apart]
    change _ = overlay none _
    rw [overlay_none_left]
    simp [entryAt?]

/-- A map that takes in an entry goes on being a map, and holds that entry laid over what it held. -/
theorem holds_insert (ordered : k.Ordered) {entries : List (k.Value × β)} (holds : shape.Holds k entries)
    (entry : k.Value × β) : shape.Holds k (shape.insert k entries entry) := by
  rw [holds_iff_keys] at holds ⊢
  cases shape with
  | sorted =>
    have keys := @Sorted.keys_insertEntry β k.Value k.order entry.1 entry.2 entries
    exact keys ▸ Sorted.insert_increasing holds
  | hashed =>
    have keys := @Hashed.keys_insertEntry β k.Value k.equal entry.1 entry.2 entries
    exact keys ▸ Hashed.insert_distinct (Ty.equal_comm ordered) holds

theorem entryAt?_insert (ordered : k.Ordered) {entries : List (k.Value × β)} (holds : shape.Holds k entries)
    (entry : k.Value × β) (key : k.Value) :
    shape.entryAt? k key (shape.insert k entries entry) =
      overlay (shape.entryAt? k key entries) (shape.entryAt? k key [entry]) := by
  cases shape with
  | sorted => exact Sorted.find?_insertEntry holds entry key
  | hashed => exact Hashed.find?_insertEntry (Ty.equivalence_equal ordered) entries entry key

theorem holds_insertAll (ordered : k.Ordered) {target : List (k.Value × β)} (holds : shape.Holds k target)
    (entries : List (k.Value × β)) : shape.Holds k (shape.insertAll k target entries) :=
  List.foldlRecOn entries _ holds fun _ holds entry _ => holds_insert ordered holds entry

/-- A map that takes in entries holds what they come to laid over what it held. -/
theorem entryAt?_insertAll (ordered : k.Ordered) {target : List (k.Value × β)} (holds : shape.Holds k target)
    (entries : List (k.Value × β)) (key : k.Value) :
    shape.entryAt? k key (shape.insertAll k target entries) =
      overlay (shape.entryAt? k key target) (shape.merged? k key entries) := by
  induction entries generalizing target with
  | nil => exact (overlay_none_right _).symm
  | cons entry rest ih =>
    calc
      _ = shape.entryAt? k key (shape.insertAll k (shape.insert k target entry) rest) := rfl
      _ = overlay (shape.entryAt? k key (shape.insert k target entry)) (shape.merged? k key rest) :=
        ih (holds_insert ordered holds entry)
      _ = _ := by rw [entryAt?_insert ordered holds, overlay_assoc, merged?_cons]

theorem holds_nil (shape : MapShape) (k : Ty) : shape.Holds k ([] : List (k.Value × β)) := by
  cases shape <;> exact .nil

end MapShape
end TypedWire
