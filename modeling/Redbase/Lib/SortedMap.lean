import Mathlib.Data.List.Basic
import Mathlib.Logic.Function.Basic

/-!
# Maps in the order of their keys

A finite map as the list of its entries, in ascending order of the keys. What a map holds is the
function `find`; two maps with the same `find` are equal.
-/

/-- A map from keys to values, in the order `cmp`. -/
structure SortedMap (κ β : Type) (cmp : κ → κ → Ordering) where
  entries : List (κ × β)
  sorted : entries.Pairwise fun a b => cmp a.1 b.1 = .lt

namespace SortedMap

open Function

variable {κ β : Type} {cmp : κ → κ → Ordering} {m m' : SortedMap κ β cmp} {key key' : κ}
  {value value' : β} {l : List (κ × β)}

def empty : SortedMap κ β cmp := ⟨[], List.Pairwise.nil⟩

def find (m : SortedMap κ β cmp) (key : κ) : Option β :=
  (m.entries.find? fun entry => cmp key entry.1 == .eq).map Prod.snd

def contains (m : SortedMap κ β cmp) (key : κ) : Bool := (m.find key).isSome

def keys (m : SortedMap κ β cmp) : List κ := m.entries.map Prod.fst

/-- The values, in the order of their keys. -/
def values (m : SortedMap κ β cmp) : List β := m.entries.map Prod.snd

/-- Puts an entry in its place; an entry with the same key is replaced. -/
def put (cmp : κ → κ → Ordering) (key : κ) (value : β) : List (κ × β) → List (κ × β)
  | [] => [(key, value)]
  | entry :: rest =>
      match cmp key entry.1 with
      | .lt => (key, value) :: entry :: rest
      | .eq => (key, value) :: rest
      | .gt => entry :: put cmp key value rest

/-! ## Entries -/

theorem mem_put {entry : κ × β} (h : entry ∈ put cmp key value l) :
    entry = (key, value) ∨ entry ∈ l := by
  induction l with
  | nil => exact Or.inl (List.mem_singleton.mp h)
  | cons head rest ih =>
      unfold put at h
      cases hc : cmp key head.1 <;> rw [hc] at h
      case lt => exact List.mem_cons.mp h
      case eq => exact (List.mem_cons.mp h).imp_right (List.mem_cons_of_mem _)
      case gt =>
        rcases List.mem_cons.mp h with rfl | h
        · exact Or.inr List.mem_cons_self
        · exact (ih h).imp_right (List.mem_cons_of_mem _)

section Order

variable [Std.TransCmp cmp] [Std.LawfulEqCmp cmp]

theorem sorted_put (h : l.Pairwise fun a b => cmp a.1 b.1 = .lt) :
    (put cmp key value l).Pairwise fun a b => cmp a.1 b.1 = .lt := by
  induction l with
  | nil => exact List.pairwise_singleton _ _
  | cons head rest ih =>
      obtain ⟨hhead, hrest⟩ := List.pairwise_cons.mp h
      unfold put
      cases hc : cmp key head.1 with
      | lt =>
          refine List.pairwise_cons.mpr ⟨fun entry hm => ?_, h⟩
          rcases List.mem_cons.mp hm with rfl | hm
          · exact hc
          · exact Std.TransCmp.lt_trans hc (hhead entry hm)
      | eq =>
          rw [Std.LawfulEqCmp.eq_of_compare hc]
          exact List.pairwise_cons.mpr ⟨hhead, hrest⟩
      | gt =>
          refine List.pairwise_cons.mpr ⟨fun entry hm => ?_, ih hrest⟩
          rcases mem_put hm with rfl | hm
          · exact Std.OrientedCmp.lt_of_gt hc
          · exact hhead entry hm

def insert (m : SortedMap κ β cmp) (key : κ) (value : β) : SortedMap κ β cmp :=
  ⟨put cmp key value m.entries, sorted_put m.sorted⟩

end Order

def erase (m : SortedMap κ β cmp) (key : κ) : SortedMap κ β cmp :=
  ⟨m.entries.filter fun entry => cmp key entry.1 != .eq, m.sorted.filter _⟩

/-! ## Lookups -/

theorem contains_iff : m.contains key = true ↔ ∃ value, m.find key = some value := by
  unfold contains
  exact Option.isSome_iff_exists

@[simp] theorem find_empty (key : κ) : (empty : SortedMap κ β cmp).find key = none := rfl

section Lookups

variable [Std.TransCmp cmp] [Std.LawfulEqCmp cmp]

omit [Std.LawfulEqCmp cmp] in
theorem ne_of_lt (h : cmp key key' = .lt) : key ≠ key' := by
  rintro rfl
  have hself : cmp key key = .eq := Std.ReflCmp.compare_self
  rw [hself] at h
  cases h

theorem find?_eq_some_iff (h : l.Pairwise fun a b => cmp a.1 b.1 = .lt) :
    (l.find? fun entry => cmp key entry.1 == .eq).map Prod.snd = some value ↔ (key, value) ∈ l := by
  induction l with
  | nil => simp
  | cons head rest ih =>
      obtain ⟨hhead, hrest⟩ := List.pairwise_cons.mp h
      rw [List.find?_cons, List.mem_cons]
      cases hc : cmp key head.1 == .eq with
      | true =>
          obtain rfl := Std.LawfulEqCmp.eq_of_compare (eq_of_beq hc)
          simp only [Option.map_some, Option.some.injEq, Prod.ext_iff, true_and]
          refine ⟨fun h => Or.inl h.symm, ?_⟩
          rintro (h | h)
          · exact h.symm
          · exact absurd rfl (ne_of_lt (hhead (head.1, value) h))
      | false =>
          rw [ih hrest]
          refine ⟨Or.inr, ?_⟩
          rintro (rfl | h)
          · have hself : cmp key key = .eq := Std.ReflCmp.compare_self
            simp [hself] at hc
          · exact h

theorem find_eq_some_iff : m.find key = some value ↔ (key, value) ∈ m.entries :=
  find?_eq_some_iff m.sorted

theorem mem_put_iff (h : l.Pairwise fun a b => cmp a.1 b.1 = .lt) {entry : κ × β} :
    entry ∈ put cmp key value l ↔ entry = (key, value) ∨ entry.1 ≠ key ∧ entry ∈ l := by
  induction l with
  | nil => simp [put]
  | cons head rest ih =>
      obtain ⟨hhead, hrest⟩ := List.pairwise_cons.mp h
      -- no entry of the list before or after the place of `key` has that key
      have hne : ∀ e ∈ rest, e.1 ≠ head.1 := fun e he => (ne_of_lt (hhead e he)).symm
      unfold put
      cases hc : cmp key head.1 with
      | lt =>
          have hkey : ∀ e ∈ head :: rest, e.1 ≠ key := by
            intro e he
            rcases List.mem_cons.mp he with rfl | he
            · exact (ne_of_lt hc).symm
            · exact (ne_of_lt (Std.TransCmp.lt_trans hc (hhead e he))).symm
          rw [List.mem_cons]
          exact or_congr_right ⟨fun he => ⟨hkey entry he, he⟩, And.right⟩
      | eq =>
          obtain rfl := Std.LawfulEqCmp.eq_of_compare hc
          rw [List.mem_cons, List.mem_cons]
          refine or_congr_right ⟨fun he => ⟨hne entry he, Or.inr he⟩, ?_⟩
          rintro ⟨hk, rfl | he⟩
          · exact absurd rfl hk
          · exact he
      | gt =>
          have hk : head.1 ≠ key := ne_of_lt (Std.OrientedCmp.lt_of_gt hc)
          rw [List.mem_cons, List.mem_cons, ih hrest]
          constructor
          · rintro (rfl | rfl | ⟨hk', he⟩)
            · exact Or.inr ⟨hk, Or.inl rfl⟩
            · exact Or.inl rfl
            · exact Or.inr ⟨hk', Or.inr he⟩
          · rintro (rfl | ⟨hk', rfl | he⟩)
            · exact Or.inr (Or.inl rfl)
            · exact Or.inl rfl
            · exact Or.inr (Or.inr ⟨hk', he⟩)

theorem mem_values : value ∈ m.values ↔ ∃ key, m.find key = some value := by
  unfold values
  rw [List.mem_map]
  constructor
  · rintro ⟨⟨key, _⟩, hm, rfl⟩
    exact ⟨key, find_eq_some_iff.mpr hm⟩
  · rintro ⟨key, hf⟩
    exact ⟨(key, value), find_eq_some_iff.mp hf, rfl⟩

/-! ## Equality -/

theorem ext_find (h : ∀ key, m.find key = m'.find key) : m = m' := by
  have hmem : ∀ entry, entry ∈ m.entries ↔ entry ∈ m'.entries := fun entry => by
    rw [← find_eq_some_iff, ← find_eq_some_iff, h]
  have hnodup : ∀ m : SortedMap κ β cmp, m.entries.Nodup := fun m =>
    m.sorted.imp fun hlt he => ne_of_lt hlt (congrArg Prod.fst he)
  have hentries : m.entries = m'.entries := by
    refine ((List.perm_ext_iff_of_nodup (hnodup m) (hnodup m')).mpr hmem).eq_of_pairwise ?_
      m.sorted m'.sorted
    intro a b _ _ hab hba
    rw [Std.OrientedCmp.gt_of_lt hab] at hba
    cases hba
  cases m
  cases m'
  cases hentries
  rfl

/-! ## New keys -/

omit [Std.LawfulEqCmp cmp] in
theorem nodup_keys (m : SortedMap κ β cmp) : (m.entries.map Prod.fst).Nodup :=
  List.pairwise_map.mpr (m.sorted.imp ne_of_lt)

omit [Std.TransCmp cmp] in
theorem put_perm (h : ∀ entry ∈ l, entry.1 ≠ key) :
    (put cmp key value l).Perm ((key, value) :: l) := by
  induction l with
  | nil => exact List.Perm.refl _
  | cons head rest ih =>
      obtain ⟨hhead, hrest⟩ := List.forall_mem_cons.mp h
      unfold put
      cases hc : cmp key head.1 with
      | lt => exact List.Perm.refl _
      | eq => exact absurd (Std.LawfulEqCmp.eq_of_compare hc).symm hhead
      | gt => exact ((ih hrest).cons head).trans (List.Perm.swap ..)

theorem insert_perm (h : m.find key = none) (value : β) :
    (m.insert key value).entries.Perm ((key, value) :: m.entries) := by
  refine put_perm fun entry hm heq => ?_
  have hfound : m.find key = some entry.2 := by
    rw [find_eq_some_iff, ← heq]
    exact hm
  rw [h] at hfound
  cases hfound

/-! ## Updates -/

variable [DecidableEq κ]

theorem find_insert (m : SortedMap κ β cmp) (key : κ) (value : β) :
    (m.insert key value).find = update m.find key (some value) := by
  funext key'
  refine Option.ext fun value' => ?_
  rw [find_eq_some_iff]
  refine (mem_put_iff m.sorted).trans ?_
  rcases eq_or_ne key' key with rfl | hne
  · simp [eq_comm]
  · rw [update_of_ne hne, find_eq_some_iff]
    simp [hne]

theorem find_erase (m : SortedMap κ β cmp) (key : κ) :
    (m.erase key).find = update m.find key none := by
  funext key'
  refine Option.ext fun value' => ?_
  rw [find_eq_some_iff]
  refine List.mem_filter.trans ?_
  rcases eq_or_ne key' key with rfl | hne
  · have hself : cmp key' key' = .eq := Std.ReflCmp.compare_self
    simp [hself]
  · have hc : cmp key key' ≠ .eq := fun h => hne (Std.LawfulEqCmp.eq_of_compare h).symm
    rw [update_of_ne hne, find_eq_some_iff]
    simp [hc]

theorem find_foldl_insert (h : l.Pairwise fun a b => cmp a.1 b.1 = .lt) (m : SortedMap κ β cmp)
    (key : κ) :
    (l.foldl (fun m entry => m.insert entry.1 entry.2) m).find key =
      ((l.find? fun entry => cmp key entry.1 == .eq).map Prod.snd).or (m.find key) := by
  induction l generalizing m with
  | nil => rfl
  | cons head rest ih =>
      obtain ⟨hhead, hrest⟩ := List.pairwise_cons.mp h
      rw [List.foldl_cons, ih hrest, find_insert, List.find?_cons]
      rcases eq_or_ne key head.1 with rfl | hne
      · have hself : cmp head.1 head.1 = .eq := Std.ReflCmp.compare_self
        have hnone : (rest.find? fun entry => cmp head.1 entry.1 == .eq) = none := by
          rw [List.find?_eq_none]
          intro e he
          rw [hhead e he]
          decide
        rw [hnone, update_self, hself]
        rfl
      · have hc : (cmp key head.1 == .eq) = false :=
          beq_false_of_ne fun hc => hne (Std.LawfulEqCmp.eq_of_compare hc)
        rw [update_of_ne hne, hc]

/-- A map is built again by inserting its entries. -/
theorem foldl_insert_empty (m : SortedMap κ β cmp) :
    m.entries.foldl (fun m entry => m.insert entry.1 entry.2) empty = m :=
  ext_find fun key => by rw [find_foldl_insert m.sorted, find_empty, Option.or_none, find]

/-! ## Many insertions -/

/-- Insertions under different new keys lose nothing. -/
theorem foldl_insert_perm (hnd : (l.map Prod.fst).Nodup)
    (hnew : ∀ entry ∈ l, m.find entry.1 = none) :
    (l.foldl (fun m entry => m.insert entry.1 entry.2) m).entries.Perm (l ++ m.entries) := by
  induction l generalizing m with
  | nil => exact List.Perm.refl _
  | cons head rest ih =>
      obtain ⟨hfresh, hrest⟩ := List.nodup_cons.mp hnd
      obtain ⟨hhead, hothers⟩ := List.forall_mem_cons.mp hnew
      rw [List.foldl_cons]
      refine (ih hrest fun entry hm => ?_).trans
        (((insert_perm hhead head.2).append_left rest).trans List.perm_middle)
      have hne : entry.1 ≠ head.1 := fun heq => hfresh (heq ▸ List.mem_map_of_mem hm)
      rw [find_insert, update_of_ne hne]
      exact hothers entry hm

end Lookups

end SortedMap
