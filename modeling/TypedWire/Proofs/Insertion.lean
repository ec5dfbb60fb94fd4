import TypedWire.Insertion
import Mathlib.Data.List.Forall2

/-! An increasing list is determined by its members, so that elements taken into a sorted list in any order
give the same list. Elements that differ from all before them stay as they arrived. -/

namespace TypedWire

variable {α β κ : Type}

theorem transCmp_comap (order : β → β → Ordering) [Std.TransCmp order] (f : α → β) :
    Std.TransCmp fun a b => order (f a) (f b) where
  eq_swap {a b} := show order (f a) (f b) = (order (f b) (f a)).swap from Std.OrientedCmp.eq_swap
  isLE_trans {a b c} first second :=
    show (order (f a) (f c)).isLE from Std.TransCmp.isLE_trans (b := f b) first second

namespace Sorted

/-- Every element comes before all that follow it. -/
def Increasing (order : α → α → Ordering) (elements : List α) : Prop :=
  elements.Pairwise fun x y => order x y = .lt

/-- The order of entries that is the order of their keys. -/
def byKey (order : κ → κ → Ordering) (p q : κ × β) : Ordering := order p.1 q.1

instance (order : κ → κ → Ordering) [Std.TransCmp order] : Std.TransCmp (@byKey β κ order) :=
  transCmp_comap order Prod.fst

/-! ### Elements that arrive in increasing order -/

theorem insert_last {order : α → α → Ordering} [Std.OrientedCmp order] {x : α} {elements : List α}
    (behind : ∀ y ∈ elements, order y x = .lt) : insert order x elements = elements ++ [x] := by
  induction elements with
  | nil => rfl
  | cons y rest ih =>
    have after : order x y = .gt := Std.OrientedCmp.gt_of_lt (behind y (by simp))
    have onward := ih fun z member => behind z (List.mem_cons_of_mem _ member)
    simp [insert, after, onward]

/-- Elements that arrive in increasing order stay as they arrived. -/
theorem foldl_insert_increasing {order : α → α → Ordering} [Std.OrientedCmp order] {elements : List α}
    (increasing : Increasing order elements) :
    elements.foldl (fun set x => insert order x set) [] = elements := by
  suffices general : ∀ done : List α, Increasing order (done ++ elements) →
      elements.foldl (fun set x => insert order x set) done = done ++ elements by
    simpa using general [] increasing
  intro done
  induction elements generalizing done with
  | nil => simp
  | cons x rest ih =>
    intro ordered
    have behind : ∀ y ∈ done, order y x = .lt := by
      intro y member
      exact (List.pairwise_append.mp ordered).2.2 y member x (by simp)
    have shifted : done ++ x :: rest = (done ++ [x]) ++ rest := by simp
    rw [shifted] at ordered ⊢
    rw [List.foldl_cons, insert_last behind]
    exact ih (List.pairwise_cons.mp increasing).2 (done ++ [x]) ordered

/-! ### Elements that arrive in any order -/

variable {order : α → α → Ordering} [Std.TransCmp order]

/-- What a list holds after taking in an element, up to the order's equality, is that element and what
it held. -/
theorem exists_mem_insert_iff (x z : α) (elements : List α) :
    (∃ y ∈ insert order x elements, order z y = .eq) ↔
      order z x = .eq ∨ ∃ y ∈ elements, order z y = .eq := by
  induction elements with
  | nil => simp [insert]
  | cons y rest ih =>
    unfold insert
    cases compared : order x y with
    | lt => simp
    | eq =>
      have congr : order z x = .eq ↔ order z y = .eq := by rw [Std.TransCmp.congr_right compared]
      simp [congr]
    | gt =>
      simp only [List.exists_mem_cons_iff, ih]
      exact or_left_comm

omit [Std.TransCmp order] in
/-- Nothing appears in a list that was neither there nor put there. -/
theorem mem_of_mem_insert {x z : α} {elements : List α} (member : z ∈ insert order x elements) :
    z = x ∨ z ∈ elements := by
  induction elements with
  | nil => simpa [insert] using member
  | cons y rest ih =>
    unfold insert at member
    cases compared : order x y with
    | lt =>
      rw [compared] at member
      simpa using member
    | eq =>
      rw [compared] at member
      exact .inr member
    | gt =>
      rw [compared] at member
      rcases List.mem_cons.mp member with rfl | later
      · exact .inr (by simp)
      · rcases ih later with here | there
        · exact .inl here
        · exact .inr (List.mem_cons_of_mem _ there)

theorem insert_increasing {x : α} {elements : List α} (increasing : Increasing order elements) :
    Increasing order (insert order x elements) := by
  induction elements with
  | nil => simp [insert, Increasing]
  | cons y rest ih =>
    obtain ⟨first, later⟩ := List.pairwise_cons.mp increasing
    unfold insert
    cases compared : order x y with
    | lt =>
      refine List.pairwise_cons.mpr ⟨?_, increasing⟩
      intro z member
      rcases List.mem_cons.mp member with rfl | member
      · exact compared
      · exact Std.TransCmp.lt_trans compared (first z member)
    | eq => exact increasing
    | gt =>
      refine List.pairwise_cons.mpr ⟨?_, ih later⟩
      intro z member
      rcases mem_of_mem_insert member with rfl | member
      · exact Std.OrientedCmp.lt_of_gt compared
      · exact first z member

theorem foldl_insert_is_increasing (elements : List α) :
    Increasing order (elements.foldl (fun set x => insert order x set) []) := by
  suffices general : ∀ done : List α, Increasing order done →
      Increasing order (elements.foldl (fun set x => insert order x set) done) from general [] .nil
  induction elements with
  | nil => exact fun _ increasing => increasing
  | cons x rest ih => exact fun done increasing => ih _ (insert_increasing increasing)

variable (order) in
theorem exists_mem_foldl_insert_iff (z : α) (elements : List α) :
    (∃ y ∈ elements.foldl (fun set x => insert order x set) [], order z y = .eq) ↔
      ∃ y ∈ elements, order z y = .eq := by
  suffices general : ∀ done : List α,
      (∃ y ∈ elements.foldl (fun set x => insert order x set) done, order z y = .eq) ↔
        (∃ y ∈ done, order z y = .eq) ∨ ∃ y ∈ elements, order z y = .eq by
    simpa using general []
  induction elements with
  | nil => simp
  | cons x rest ih =>
    intro done
    rw [List.foldl_cons, ih, exists_mem_insert_iff, List.exists_mem_cons_iff]
    exact or_assoc.trans or_left_comm

/-- An increasing list is determined by what it holds: two that hold the same up to the order's equality
agree place by place. -/
theorem forall₂_of_increasing {a b : List α} (first : Increasing order a) (second : Increasing order b)
    (forth : ∀ x ∈ a, ∃ y ∈ b, order x y = .eq) (back : ∀ y ∈ b, ∃ x ∈ a, order x y = .eq) :
    List.Forall₂ (fun x y => order x y = .eq) a b := by
  induction a generalizing b with
  | nil =>
    cases b with
    | nil => exact .nil
    | cons y b =>
      obtain ⟨x, member, -⟩ := back y (by simp)
      simp at member
  | cons x a ih =>
    cases b with
    | nil =>
      obtain ⟨y, member, -⟩ := forth x (by simp)
      simp at member
    | cons y b =>
      obtain ⟨leastA, restA⟩ := List.pairwise_cons.mp first
      obtain ⟨leastB, restB⟩ := List.pairwise_cons.mp second
      -- The least elements agree: whatever agrees with one of them is not below the other.
      have least : order x y = .eq := by
        obtain ⟨y', memberB, sameB⟩ := forth x (by simp)
        obtain ⟨x', memberA, sameA⟩ := back y (by simp)
        rcases List.mem_cons.mp memberB with rfl | laterB
        · exact sameB
        · rcases List.mem_cons.mp memberA with rfl | laterA
          · exact sameA
          · have above : order y x = .lt :=
              Std.TransCmp.lt_of_lt_of_eq (leastB y' laterB) (Std.OrientedCmp.eq_symm sameB)
            have below : order x y = .lt := Std.TransCmp.lt_of_lt_of_eq (leastA x' laterA) sameA
            exact absurd below (Std.OrientedCmp.not_lt_of_lt above)
      refine .cons least (ih restA restB ?_ ?_)
      · intro x' member
        obtain ⟨y', memberB, same⟩ := forth x' (List.mem_cons_of_mem _ member)
        rcases List.mem_cons.mp memberB with rfl | later
        · have before := leastA x' member
          have equal := Std.TransCmp.eq_trans least (Std.OrientedCmp.eq_symm same)
          rw [before] at equal
          cases equal
        · exact ⟨y', later, same⟩
      · intro y' member
        obtain ⟨x', memberA, same⟩ := back y' (List.mem_cons_of_mem _ member)
        rcases List.mem_cons.mp memberA with rfl | later
        · have before := leastB y' member
          have equal := Std.TransCmp.eq_trans (Std.OrientedCmp.eq_symm least) same
          rw [before] at equal
          cases equal
        · exact ⟨x', later, same⟩

theorem Increasing.eq_of_order {elements : List α} (increasing : Increasing order elements) {x y : α}
    (first : x ∈ elements) (second : y ∈ elements) (same : order x y = .eq) : x = y := by
  have apart : elements.Pairwise fun x y => order x y = .eq → x = y :=
    increasing.imp fun before equal => by simp [before] at equal
  have apart' : elements.Pairwise (flip fun x y => order x y = .eq → x = y) :=
    increasing.imp fun before equal => by simp [Std.OrientedCmp.gt_of_lt before] at equal
  exact apart.forall_of_forall_of_flip (fun _ _ _ => rfl) apart' first second same

/-- Increasing lists with the same members are the same. -/
theorem eq_of_increasing {a b : List α} (first : Increasing order a) (second : Increasing order b)
    (same : ∀ x, x ∈ a ↔ x ∈ b) : a = b := by
  have nodup : ∀ {l : List α}, Increasing order l → l.Nodup := fun increasing =>
    increasing.imp fun {x y} before equal => by
      have same : order y y = .eq := Std.ReflCmp.compare_self
      rw [equal, same] at before
      cases before
  have perm := (List.perm_ext_iff_of_nodup (nodup first) (nodup second)).mpr same
  have antisymm : ∀ x y, x ∈ a → y ∈ b → order x y = .lt → order y x = .lt → x = y :=
    fun x y _ _ before after => absurd after (Std.OrientedCmp.not_lt_of_lt before)
  exact perm.eq_of_pairwise antisymm first second

omit [Std.TransCmp order] in
/-- An element that differs from all others is added to them. -/
theorem insert_perm {x : α} {elements : List α} (fresh : ∀ y ∈ elements, order x y ≠ .eq) :
    (insert order x elements).Perm (x :: elements) := by
  induction elements with
  | nil => exact .refl _
  | cons y rest ih =>
    have onward := ih fun z member => fresh z (List.mem_cons_of_mem _ member)
    unfold insert
    cases compared : order x y with
    | lt => exact .refl _
    | eq => exact absurd compared (fresh y (by simp))
    | gt => exact (onward.cons y).trans (.swap x y rest)

/-- Elements that all differ are all kept. -/
theorem foldl_insert_perm {elements : List α} (distinct : elements.Pairwise fun x y => order x y ≠ .eq) :
    (elements.foldl (fun set x => insert order x set) []).Perm elements := by
  suffices general : ∀ done : List α, (∀ x ∈ done, ∀ y ∈ elements, order x y ≠ .eq) →
      (elements.foldl (fun set x => insert order x set) done).Perm (done ++ elements) by
    simpa using general [] (by simp)
  induction elements with
  | nil => simp
  | cons x rest ih =>
    obtain ⟨first, later⟩ := List.pairwise_cons.mp distinct
    intro done apart
    have fresh : ∀ y ∈ done, order x y ≠ .eq := by
      intro y member same
      exact apart y member x (by simp) (Std.OrientedCmp.eq_symm same)
    have added := insert_perm fresh
    have apart' : ∀ z ∈ insert order x done, ∀ y ∈ rest, order z y ≠ .eq := by
      intro z member y later
      rcases List.mem_cons.mp (added.mem_iff.mp member) with rfl | there
      · exact first y later
      · exact apart z there y (List.mem_cons_of_mem _ later)
    calc
      _ = rest.foldl (fun set y => insert order y set) (insert order x done) := rfl
      List.Perm _ (insert order x done ++ rest) := ih later _ apart'
      List.Perm _ ((x :: done) ++ rest) := added.append_right rest
      List.Perm _ (done ++ x :: rest) := List.perm_middle.symm

/-! ### Entries -/

/-- An entry with a new key is put in its place like an element. -/
theorem insertEntry_eq_insert {order : κ → κ → Ordering} {key : κ} {value : β} {entries : List (κ × β)}
    (fresh : ∀ entry ∈ entries, order key entry.1 ≠ .eq) :
    insertEntry order key value entries = insert (byKey order) (key, value) entries := by
  induction entries with
  | nil => rfl
  | cons entry rest ih =>
    have onward := ih fun e member => fresh e (List.mem_cons_of_mem _ member)
    have different := fresh entry (by simp)
    cases place : order key entry.1 with
    | lt => simp [insertEntry, insert, byKey, place]
    | eq => exact absurd place different
    | gt => simp [insertEntry, insert, byKey, place, onward]

theorem foldl_insertEntry_eq {order : κ → κ → Ordering} [Std.TransCmp order] {entries : List (κ × β)}
    (distinct : entries.Pairwise fun p q => order p.1 q.1 ≠ .eq) :
    entries.foldl (fun map entry => insertEntry order entry.1 entry.2 map) [] =
      entries.foldl (fun set entry => insert (byKey order) entry set) [] := by
  suffices general : ∀ done : List (κ × β), (∀ p ∈ done, ∀ q ∈ entries, order p.1 q.1 ≠ .eq) →
      entries.foldl (fun map entry => insertEntry order entry.1 entry.2 map) done =
        entries.foldl (fun set entry => insert (byKey order) entry set) done from
    general [] (by simp)
  induction entries with
  | nil => simp
  | cons entry rest ih =>
    obtain ⟨first, later⟩ := List.pairwise_cons.mp distinct
    intro done apart
    have fresh : ∀ p ∈ done, order entry.1 p.1 ≠ .eq := by
      intro p member same
      exact apart p member entry (by simp) (Std.OrientedCmp.eq_symm same)
    rw [List.foldl_cons, List.foldl_cons, insertEntry_eq_insert fresh]
    refine ih later _ fun p member q later => ?_
    have origin : p = entry ∨ p ∈ done := mem_of_mem_insert member
    rcases origin with rfl | there
    · exact first q later
    · exact apart p there q (List.mem_cons_of_mem _ later)

/-! ### What taking in keeps -/

theorem length_insert_le {order : α → α → Ordering} (x : α) (elements : List α) :
    (insert order x elements).length ≤ elements.length + 1 := by
  induction elements with
  | nil => simp [insert]
  | cons y rest ih =>
    unfold insert
    cases order x y with
    | lt => simp
    | eq => simp
    | gt => simpa using ih

/-- The keys of a map take in a key as a set does. -/
theorem keys_insertEntry {order : κ → κ → Ordering} (key : κ) (value : β) (entries : List (κ × β)) :
    (insertEntry order key value entries).map Prod.fst = insert order key (entries.map Prod.fst) := by
  induction entries with
  | nil => rfl
  | cons entry rest ih =>
    simp only [insertEntry, List.map_cons, insert]
    cases order key entry.1 with
    | lt => rfl
    | eq => rfl
    | gt => simp [ih]

theorem value_of_mem_insertEntry {order : κ → κ → Ordering} {key : κ} {value : β} {entries : List (κ × β)}
    {p : κ × β} (member : p ∈ insertEntry order key value entries) : p.2 = value ∨ ∃ q ∈ entries, q.2 = p.2 := by
  induction entries with
  | nil => simp_all [insertEntry]
  | cons entry rest ih =>
    unfold insertEntry at member
    cases place : order key entry.1 with
    | lt =>
      rw [place] at member
      rcases List.mem_cons.mp member with rfl | there
      · exact .inl rfl
      · exact .inr ⟨p, there, rfl⟩
    | eq =>
      rw [place] at member
      rcases List.mem_cons.mp member with rfl | there
      · exact .inl rfl
      · exact .inr ⟨p, List.mem_cons_of_mem _ there, rfl⟩
    | gt =>
      rw [place] at member
      rcases List.mem_cons.mp member with rfl | there
      · exact .inr ⟨p, by simp, rfl⟩
      · exact (ih there).imp_right fun ⟨q, before, same⟩ => ⟨q, List.mem_cons_of_mem _ before, same⟩

end Sorted

namespace Hashed

theorem foldl_insert_distinct {same : α → α → Bool} {elements : List α}
    (distinct : elements.Pairwise fun x y => same y x = false) :
    elements.foldl (fun set x => insert same x set) [] = elements := by
  suffices general : ∀ done : List α, (done ++ elements).Pairwise (fun x y => same y x = false) →
      elements.foldl (fun set x => insert same x set) done = done ++ elements by
    simpa using general [] distinct
  intro done
  induction elements generalizing done with
  | nil => simp
  | cons x rest ih =>
    intro apart
    have fresh : done.any (same x) = false := by
      simp only [List.any_eq_false]
      intro y member
      simp [(List.pairwise_append.mp apart).2.2 y member x (by simp)]
    have shifted : done ++ x :: rest = (done ++ [x]) ++ rest := by simp
    rw [shifted] at apart ⊢
    rw [List.foldl_cons, insert, if_neg (by simp [fresh])]
    exact ih (List.pairwise_cons.mp distinct).2 (done ++ [x]) apart

theorem insertEntry_last {same : κ → κ → Bool} {key : κ} {value : β} {entries : List (κ × β)}
    (fresh : ∀ entry ∈ entries, same key entry.1 = false) :
    insertEntry same key value entries = entries ++ [(key, value)] := by
  induction entries with
  | nil => rfl
  | cons entry rest ih =>
    have onward := ih fun e member => fresh e (List.mem_cons_of_mem _ member)
    simp [insertEntry, fresh entry (by simp), onward]

theorem foldl_insertEntry_distinct {same : κ → κ → Bool} {entries : List (κ × β)}
    (distinct : entries.Pairwise fun p q => same q.1 p.1 = false) :
    entries.foldl (fun map entry => insertEntry same entry.1 entry.2 map) [] = entries := by
  suffices general : ∀ done : List (κ × β), (done ++ entries).Pairwise (fun p q => same q.1 p.1 = false) →
      entries.foldl (fun map entry => insertEntry same entry.1 entry.2 map) done = done ++ entries by
    simpa using general [] distinct
  intro done
  induction entries generalizing done with
  | nil => simp
  | cons entry rest ih =>
    intro apart
    have fresh : ∀ p ∈ done, same entry.1 p.1 = false := by
      intro p member
      exact (List.pairwise_append.mp apart).2.2 p member entry (by simp)
    have shifted : done ++ entry :: rest = (done ++ [entry]) ++ rest := by simp
    rw [shifted] at apart ⊢
    rw [List.foldl_cons, insertEntry_last fresh]
    exact ih (List.pairwise_cons.mp distinct).2 (done ++ [entry]) apart

/-! ### What taking in keeps -/

theorem mem_of_mem_insert {same : α → α → Bool} {x z : α} {elements : List α}
    (member : z ∈ insert same x elements) : z = x ∨ z ∈ elements := by
  unfold insert at member
  by_cases there : elements.any (same x) = true
  · rw [if_pos there] at member
    exact .inr member
  · rw [if_neg there] at member
    simpa [or_comm] using member

theorem length_insert_le {same : α → α → Bool} (x : α) (elements : List α) :
    (insert same x elements).length ≤ elements.length + 1 := by
  unfold insert
  by_cases there : elements.any (same x) = true
  · simp [there]
  · simp [there]

theorem insert_distinct {same : α → α → Bool} (symmetric : ∀ x y, same x y = same y x) {x : α} {elements : List α}
    (distinct : elements.Pairwise fun x y => same x y = false) :
    (insert same x elements).Pairwise fun x y => same x y = false := by
  unfold insert
  by_cases there : elements.any (same x) = true
  · rwa [if_pos there]
  · rw [if_neg there]
    refine List.pairwise_append.mpr ⟨distinct, List.pairwise_singleton _ _, ?_⟩
    intro y member z last
    rw [List.mem_singleton.mp last, symmetric]
    simp only [Bool.not_eq_true, List.any_eq_false] at there
    exact there y member

theorem keys_insertEntry {same : κ → κ → Bool} (key : κ) (value : β) (entries : List (κ × β)) :
    (insertEntry same key value entries).map Prod.fst = insert same key (entries.map Prod.fst) := by
  induction entries with
  | nil => rfl
  | cons entry rest ih =>
    by_cases found : same key entry.1 = true
    · simp [insertEntry, insert, found]
    · rw [insertEntry, if_neg found, List.map_cons, ih]
      by_cases there : (rest.map Prod.fst).any (same key) = true
      · simp [insert, found, there]
      · simp [insert, found, there]

theorem value_of_mem_insertEntry {same : κ → κ → Bool} {key : κ} {value : β} {entries : List (κ × β)} {p : κ × β}
    (member : p ∈ insertEntry same key value entries) : p.2 = value ∨ ∃ q ∈ entries, q.2 = p.2 := by
  induction entries with
  | nil => simp_all [insertEntry]
  | cons entry rest ih =>
    unfold insertEntry at member
    by_cases found : same key entry.1 = true
    · rw [if_pos found] at member
      rcases List.mem_cons.mp member with rfl | there
      · exact .inl rfl
      · exact .inr ⟨p, List.mem_cons_of_mem _ there, rfl⟩
    · rw [if_neg found] at member
      rcases List.mem_cons.mp member with rfl | there
      · exact .inr ⟨p, by simp, rfl⟩
      · exact (ih there).imp_right fun ⟨q, before, same⟩ => ⟨q, List.mem_cons_of_mem _ before, same⟩

end Hashed
end TypedWire
