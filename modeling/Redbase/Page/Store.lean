import Redbase.Page.Lemmas.Coherent
import Redbase.Lib.Chain

/-!
# What a page file is for

A `Store` is a set of pages in use, each with its data, and a stack of free pages. `Represents` says
that a page file implements one: its free list is threaded through the headers of the free pages.
-/

namespace Redbase.Page

open Bytes PageFile ByteIo Linked

/-- The pages below `numPages` are in use, apart from those on the stack `free`. -/
structure Store where
  numPages : Nat
  free : List Nat
  data : Nat → PageData
  free_nodup : free.Nodup
  free_lt : ∀ p ∈ free, p < numPages

namespace Store

def InUse (st : Store) (p : Nat) : Prop := p < st.numPages ∧ p ∉ st.free

instance (st : Store) (p : Nat) : Decidable (st.InUse p) := inferInstanceAs (Decidable (_ ∧ _))

/-- No page yet. -/
def empty : Store := ⟨0, [], fun _ => Block.zero _, by simp, by simp⟩

/-- The page handed out next: the last one disposed of, else a new one. -/
def nextId (st : Store) : Nat := st.free.headD st.numPages

/-- Takes the next page into use, with zero data. -/
def allocate (st : Store) : Store where
  numPages := if st.free = [] then st.numPages + 1 else st.numPages
  free := st.free.tail
  data := Function.update st.data st.nextId (Block.zero _)
  free_nodup := st.free_nodup.tail
  free_lt p hp := by
    have := st.free_lt p (List.mem_of_mem_tail hp)
    split <;> omega

def write (st : Store) (p : Nat) (d : PageData) : Store :=
  { st with data := Function.update st.data p d }

/-- Puts a page in use on the stack. -/
def dispose (st : Store) (p : Nat) (h : st.InUse p) : Store :=
  { st with
    free := p :: st.free
    free_nodup := List.nodup_cons.mpr ⟨h.2, st.free_nodup⟩
    free_lt := fun q hq => by
      rcases List.mem_cons.mp hq with rfl | hq
      · exact h.1
      · exact st.free_lt q hq }

@[simp] theorem write_data (st : Store) (p : Nat) (d : PageData) :
    (st.write p d).data = Function.update st.data p d := rfl

@[simp] theorem allocate_data (st : Store) :
    st.allocate.data = Function.update st.data st.nextId (Block.zero _) := rfl

@[simp] theorem allocate_free (st : Store) : st.allocate.free = st.free.tail := rfl

@[simp] theorem allocate_numPages (st : Store) :
    st.allocate.numPages = if st.free = [] then st.numPages + 1 else st.numPages := rfl

@[simp] theorem dispose_data (st : Store) (p : Nat) (h : st.InUse p) :
    (st.dispose p h).data = st.data := rfl

@[simp] theorem dispose_free (st : Store) (p : Nat) (h : st.InUse p) :
    (st.dispose p h).free = p :: st.free := rfl

@[simp] theorem dispose_numPages (st : Store) (p : Nat) (h : st.InUse p) :
    (st.dispose p h).numPages = st.numPages := rfl

@[simp] theorem inUse_write (st : Store) (p : Nat) (d : PageData) (q : Nat) :
    (st.write p d).InUse q ↔ st.InUse q := Iff.rfl

/-- What a client can read: the data of the pages in use. -/
def view (st : Store) (p : Nat) : Option PageData := if st.InUse p then some (st.data p) else none

theorem isSome_view (st : Store) (p : Nat) : (st.view p).isSome ↔ st.InUse p := by
  unfold view
  split <;> simp [*]

theorem view_write (st : Store) {p : Nat} (hu : st.InUse p) (d : PageData) :
    (st.write p d).view = Function.update st.view p (some d) := by
  funext q
  rcases eq_or_ne q p with rfl | hq <;> simp [view, *]

/-- The page handed out was not in use. -/
theorem not_inUse_nextId (st : Store) : ¬ st.InUse st.nextId := by
  unfold nextId InUse
  cases h : st.free <;> simp

theorem inUse_allocate (st : Store) (q : Nat) :
    st.allocate.InUse q ↔ q = st.nextId ∨ st.InUse q := by
  have hn := st.free_nodup
  have hl := st.free_lt
  show (q < if st.free = [] then st.numPages + 1 else st.numPages) ∧ q ∉ st.free.tail ↔
    q = st.free.headD st.numPages ∨ q < st.numPages ∧ q ∉ st.free
  cases h : st.free with
  | nil => simp; omega
  | cons p free =>
      rw [h] at hn hl
      have hp := (List.nodup_cons.mp hn).1
      have hlt := hl p (by simp)
      simp only [List.headD_cons, List.tail_cons, List.mem_cons, reduceCtorEq, if_false, not_or]
      constructor
      · rintro ⟨h₁, h₂⟩
        rcases eq_or_ne q p with rfl | hq
        · exact Or.inl rfl
        · exact Or.inr ⟨h₁, hq, h₂⟩
      · rintro (rfl | ⟨h₁, h₂, h₃⟩)
        · exact ⟨hlt, hp⟩
        · exact ⟨h₁, h₃⟩

theorem view_nextId (st : Store) : st.view st.nextId = none := if_neg st.not_inUse_nextId

theorem view_allocate (st : Store) :
    st.allocate.view = Function.update st.view st.nextId (some (Block.zero _)) := by
  funext q
  rcases eq_or_ne q st.nextId with rfl | hq <;> simp [view, inUse_allocate, *]

theorem inUse_dispose (st : Store) {p : Nat} (h : st.InUse p) (q : Nat) :
    (st.dispose p h).InUse q ↔ st.InUse q ∧ q ≠ p := by
  simp only [InUse, dispose, List.mem_cons, not_or]
  tauto

end Store

variable {I : Type} [ByteIo I]

/-- A page that the file marks as used. -/
def PageFile.InUse (s : PageFile I) (p : Nat) : Prop :=
  p < s.header.numPages ∧ (s.image p).nextFree = pageUsed

instance (s : PageFile I) (p : Nat) : Decidable (s.InUse p) := inferInstanceAs (Decidable (_ ∧ _))

/-- The data of the pages in use. -/
def PageFile.contents (s : PageFile I) (p : Nat) : Option PageData :=
  if s.InUse p then some (s.image p).data else none

/-- The link value that points at a page. -/
def link (p : Nat) : Int := p

/-- The free list of the file, from the link `h`. -/
abbrev FreeChain (s : PageFile I) : Int → List Nat → Prop :=
  Chain (fun p => (s.image p).nextFree) link freeListEnd

/-- The page file `s` implements the store `st`. -/
structure Represents (s : PageFile I) (st : Store) : Prop where
  coherent : Coherent s
  numPages : s.header.numPages = st.numPages
  chain : FreeChain s s.header.firstFreePage st.free
  small : ∀ p ∈ st.free, p < 2 ^ 31
  used : ∀ p, st.InUse p → (s.image p).nextFree = pageUsed
  data : ∀ p, st.InUse p → (s.image p).data = st.data p

namespace Represents

variable {s t : PageFile I} {st : Store} {p : Nat}

theorem lt_numPages (h : Represents s st) (hp : st.InUse p) : p < s.header.numPages :=
  h.numPages ▸ hp.1

/-- A free page's header holds a link, never the mark of a page in use. -/
theorem free_iff (h : Represents s st) (hp : p < s.header.numPages) :
    p ∈ st.free ↔ (s.image p).nextFree ≠ pageUsed := by
  constructor
  · intro hf
    rcases h.chain.link_cases hf with he | ⟨b, _, he⟩
    · rw [he]
      decide
    · rw [he, link]
      simp only [pageUsed]
      omega
  · intro hne
    by_contra hf
    exact hne (h.used p ⟨h.numPages ▸ hp, hf⟩)

theorem inUse_iff (h : Represents s st) (p : Nat) : s.InUse p ↔ st.InUse p := by
  constructor
  · rintro ⟨hp, hu⟩
    exact ⟨h.numPages ▸ hp, fun hf => (h.free_iff hp).mp hf hu⟩
  · intro hu
    exact ⟨h.lt_numPages hu, h.used p hu⟩

theorem contents_eq (h : Represents s st) : s.contents = st.view := by
  funext p
  rw [contents, Store.view]
  by_cases hu : st.InUse p
  · rw [if_pos ((h.inUse_iff p).mpr hu), if_pos hu, h.data p hu]
  · rw [if_neg (fun h' => hu ((h.inUse_iff p).mp h')), if_neg hu]

theorem firstFree_eq (h : Represents s st) :
    s.header.firstFreePage = freeListEnd ∧ st.free = [] ∨
      ∃ p free, st.free = p :: free ∧ s.header.firstFreePage = link p := by
  cases hf : st.free with
  | nil => exact Or.inl ⟨(hf ▸ h.chain).eq_nil, rfl⟩
  | cons p free => exact Or.inr ⟨p, free, rfl, (hf ▸ h.chain).head_eq⟩

/-- The header depends only on the number of pages and the free list. -/
theorem header_eq {st' : Store} (h : Represents s st) (h' : Represents t st')
    (hn : st'.numPages = st.numPages) (hf : st'.free = st.free) : t.header = s.header := by
  have hnum : t.header.numPages = s.header.numPages := by rw [h.numPages, h'.numPages, hn]
  have hfree : t.header.firstFreePage = s.header.firstFreePage := by
    rcases h.firstFree_eq with ⟨he, hnil⟩ | ⟨p, free, hcons, he⟩
    · rw [he]
      exact Chain.eq_nil (hnil ▸ hf ▸ h'.chain)
    · rw [he]
      exact Chain.head_eq (hcons ▸ hf ▸ h'.chain)
  cases hs : s.header
  cases ht : t.header
  rw [hs, ht] at hnum hfree
  cases hnum
  cases hfree
  rfl

theorem link_isI32 (h : Represents s st) : IsI32 s.header.firstFreePage := by
  rcases h.firstFree_eq with ⟨he, _⟩ | ⟨p, free, hf, he⟩
  · rw [he, IsI32]
    decide
  · have hp := h.small p (by simp [hf])
    rw [he]
    unfold IsI32 link
    omega

theorem header_valid (h : Represents s st) : s.header.Valid := by
  rcases h.firstFree_eq with ⟨he, _⟩ | ⟨p, free, hf, he⟩
  · rw [FileHeader.Valid, he]
    exact ⟨Int.le_refl _, fun hne => absurd rfl hne⟩
  · have hp := h.small p (by simp [hf])
    have hlt := st.free_lt p (by simp [hf])
    rw [FileHeader.Valid, he, h.numPages, link, asU32]
    simp only [freeListEnd]
    omega

/-- A file that shows the same pages under the same header implements the same store. -/
theorem congr (h : Represents s st) (hc : Coherent t) (hh : t.header = s.header)
    (hi : ∀ p < s.header.numPages, t.image p = s.image p) : Represents t st where
  coherent := hc
  numPages := hh ▸ h.numPages
  chain := by
    rw [hh]
    exact h.chain.congr fun p hp => by rw [hi p (h.numPages ▸ st.free_lt p hp)]
  small := h.small
  used p hp := by rw [hi p (h.lt_numPages hp)]; exact h.used p hp
  data p hp := by rw [hi p (h.lt_numPages hp)]; exact h.data p hp

end Represents

end Redbase.Page
