import Redbase.Buffer.Lemmas.Frames

/-!
# Every method keeps the invariant

Whether it succeeds or fails at any of its steps.
-/

namespace Redbase.Buffer

open Prog Bytes Page Function Linked BufferPoolState

variable {F : Type} {cap : Nat} {s t : BufferPoolState F cap} {l : List (Fin cap)} {f : Fin cap}
  {guards : List (Guard cap)}

/-! ## The order -/

theorem Order.of_same (h : Order s l) (hl : t.links = s.links) (hf : t.freeList = s.freeList) :
    Order t l :=
  ⟨hl ▸ h.links, h.nodup, hf ▸ h.free_nodup, hf ▸ h.mem_iff⟩

theorem Order.touch (h : Order s l) (hf : f ∈ l) : Order (s.touch f) (f :: l.erase f) := by
  rw [touch_of_links h.links h.nodup]
  refine ⟨rfl, List.nodup_cons.mpr ⟨h.nodup.not_mem_erase, h.nodup.erase f⟩,
    h.free_nodup, fun x => ?_⟩
  show x ∈ f :: l.erase f ↔ x ∉ s.freeList
  rw [← h.mem_iff x, List.mem_cons, h.nodup.mem_erase_iff]
  rcases eq_or_ne x f with rfl | hx
  · simp [hf]
  · simp [hx]

/-- The frame on top of the free list is taken. -/
theorem Order.pop {rest : List (Fin cap)} (h : Order s l) (hf : s.freeList = f :: rest) :
    Order (withLinks { s with freeList := rest } (Links.ofList (f :: l))) (f :: l) := by
  have hn := hf ▸ h.free_nodup
  obtain ⟨hfr, hrest⟩ := List.nodup_cons.mp hn
  have hfl : f ∉ l := fun hm => (h.mem_iff f).mp hm (by simp [hf])
  refine ⟨rfl, List.nodup_cons.mpr ⟨hfl, h.nodup⟩, hrest, fun x => ?_⟩
  show x ∈ f :: l ↔ x ∉ rest
  rw [List.mem_cons, h.mem_iff x, hf, List.mem_cons, not_or]
  rcases eq_or_ne x f with rfl | hx
  · simp [hfr]
  · simp [hx]

/-- The frame goes from the list to the free list. -/
theorem Order.evict (h : Order s l) (hf : f ∈ l) :
    Order { s.unlink f with freeList := f :: (s.unlink f).freeList } (l.erase f) := by
  rw [unlink_of_links h.links h.nodup]
  have hfree := (h.mem_iff f).mp hf
  refine ⟨rfl, h.nodup.erase f, List.nodup_cons.mpr ⟨hfree, h.free_nodup⟩, fun x => ?_⟩
  show x ∈ l.erase f ↔ x ∉ f :: s.freeList
  rw [h.nodup.mem_erase_iff, List.mem_cons, not_or, h.mem_iff x]

/-! ## Guards -/

theorem Pinned.of_same (h : Pinned s guards)
    (hp : ∀ x, (t.frames x).pinCount = (s.frames x).pinCount)
    (hk : ∀ x, (t.frames x).key = (s.frames x).key) : Pinned t guards :=
  ⟨fun x => (hp x).trans (h.count x), fun g hg => (hk g.frameId).trans (h.key g hg)⟩

theorem Pinned.ne_of_pinCount (h : Pinned s guards) (hp : (s.frames f).pinCount = 0) {g : Guard cap}
    (hg : g ∈ guards) : g.frameId ≠ f := by
  rintro rfl
  rw [h.count, List.countP_eq_zero] at hp
  exact hp g hg (by simp)

theorem Pinned.forget (h : Pinned s guards) (hp : (s.frames f).pinCount = 0) :
    Pinned (s.forget f) guards := by
  constructor
  · intro x
    rw [← h.count x]
    rcases eq_or_ne x f with rfl | hx <;> simp [BufferPoolState.forget, *]
  · intro g hg
    simp only [BufferPoolState.forget, update_of_ne (h.ne_of_pinCount hp hg)]
    exact h.key g hg

/-- One more guard on a frame. -/
theorem Pinned.push (h : Pinned s guards) {g : Guard cap}
    (hp : ∀ x, (t.frames x).pinCount =
      if x = g.frameId then (s.frames x).pinCount + 1 else (s.frames x).pinCount)
    (hk : ∀ g' ∈ guards, (t.frames g'.frameId).key = (s.frames g'.frameId).key)
    (hg : (t.frames g.frameId).key = some g.key) : Pinned t (g :: guards) := by
  constructor
  · intro x
    rw [hp, List.countP_cons, ← h.count]
    simp only [decide_eq_true_eq, eq_comm (b := x)]
    split <;> rfl
  · intro g' hg'
    rcases List.mem_cons.mp hg' with rfl | hg'
    · exact hg
    · exact (hk g' hg').trans (h.key g' hg')

theorem Pinned.drop (h : Pinned s guards) {g : Guard cap} (hg : g ∈ guards)
    (hp : ∀ x, (t.frames x).pinCount =
      if x = g.frameId then (s.frames x).pinCount - 1 else (s.frames x).pinCount)
    (hk : ∀ x, (t.frames x).key = (s.frames x).key) : Pinned t (guards.erase g) := by
  constructor
  · intro x
    rw [hp, List.countP_erase, ← h.count]
    simp only [hg, decide_eq_true_eq, true_and, eq_comm (b := x)]
    split <;> rfl
  · intro g' hg'
    exact (hk _).trans (h.key g' (List.mem_of_mem_erase hg'))

/-! ## The page table -/

section Table

variable [LawfulPageStore F]

theorem Table.of_same (h : Table s) (hk : ∀ x, (t.frames x).key = (s.frames x).key)
    (ht : t.pageTable = s.pageTable) (hl : t.freeList = s.freeList) (hf : t.files = s.files)
    (hn : t.nextFileId = s.nextFileId)
    (hi : ∀ x, (s.frames x).key = none → (t.frames x).pinCount = 0 ∧ (t.frames x).dirty = false) :
    Table t where
  mem_iff key x := by rw [ht, hk]; exact h.mem_iff key x
  free x hx := by rw [hk]; exact h.free x (hl ▸ hx)
  idle x hx := hi x (hk x ▸ hx)
  registered x key hx := by rw [hf]; exact h.registered x key (hk x ▸ hx)
  valid i file hi := h.valid i file (hf ▸ hi)
  fresh i hi := by rw [hf]; exact h.fresh i (hn ▸ hi)

/-- A call on a registered file. -/
theorem Table.setFile (h : Table s) {fileId : Nat} {file file' : F}
    (hf : s.files fileId = some file) (hk : LawfulPageStore.Valid file' ∧
      ∀ p, LawfulPageStore.InUse file p → LawfulPageStore.InUse file' p) :
    Table { s with files := update s.files fileId (some file') } where
  mem_iff := h.mem_iff
  free := h.free
  idle := h.idle
  registered x key hx := by
    obtain ⟨file₀, h₀, hu⟩ := h.registered x key hx
    rcases eq_or_ne key.fileId fileId with he | hne
    · rw [he, hf, Option.some.injEq] at h₀
      exact ⟨file', by simp [he], hk.2 _ (h₀ ▸ hu)⟩
    · exact ⟨file₀, by simpa [hne] using h₀, hu⟩
  valid i file₀ hi := by
    rcases eq_or_ne i fileId with rfl | hne
    · simp only [update_self, Option.some.injEq] at hi
      exact hi ▸ hk.1
    · exact h.valid i file₀ (by simpa [hne] using hi)
  fresh i hi := by
    rcases eq_or_ne i fileId with rfl | hne
    · rw [h.fresh i hi] at hf
      cases hf
    · simpa [hne] using h.fresh i hi

theorem Table.forget (h : Table s) (hp : (s.frames f).pinCount = 0) : Table (s.forget f) where
  mem_iff key x := by
    simp only [BufferPoolState.forget]
    rcases eq_or_ne x f with rfl | hx
    · simp only [update_self, reduceCtorEq, iff_false]
      cases hk : (s.frames x).key with
      | none => simp [h.mem_iff, hk]
      | some key' =>
          rcases eq_or_ne key key' with rfl | hne
          · simp
          · simp [hne, h.mem_iff, hk, hne.symm]
    · rw [update_of_ne hx]
      cases hk : (s.frames f).key with
      | none => exact h.mem_iff key x
      | some key' =>
          rcases eq_or_ne key key' with rfl | hne
          · have hf := (h.mem_iff key f).mpr hk
            simp only [update_self, reduceCtorEq, false_iff]
            intro hx'
            rw [(h.mem_iff key x).mpr hx', Option.some.injEq] at hf
            exact hx hf
          · simp only [update_of_ne hne]
            exact h.mem_iff key x
  free x hx := by
    rcases eq_or_ne x f with rfl | hne
    · simp [BufferPoolState.forget]
    · simpa [BufferPoolState.forget, hne] using h.free x hx
  idle x hx := by
    rcases eq_or_ne x f with rfl | hne
    · simp [BufferPoolState.forget, hp]
    · simp only [BufferPoolState.forget, update_of_ne hne] at hx ⊢
      exact h.idle x hx
  registered x key hx := by
    rcases eq_or_ne x f with rfl | hne
    · simp [BufferPoolState.forget] at hx
    · simp only [BufferPoolState.forget, update_of_ne hne] at hx
      exact h.registered x key hx
  valid := h.valid
  fresh := h.fresh

omit [LawfulPageStore F] in
theorem forget_pageTable {key : BufferKey} (hk : s.pageTable key = none) :
    (s.forget f).pageTable key = none := by
  simp only [BufferPoolState.forget]
  cases hf : (s.frames f).key with
  | none => exact hk
  | some key' => rcases eq_or_ne key key' with rfl | hne <;> simp [*]

theorem Table.place (h : Table s) {key : BufferKey} {data : PageData} {dirty : Bool}
    (hk : (s.frames f).key = none) (ht : s.pageTable key = none) (hf : f ∉ s.freeList)
    (hu : ∃ file, s.files key.fileId = some file ∧ LawfulPageStore.InUse file key.pageId) :
    Table (s.place f key data dirty) where
  mem_iff key' x := by
    simp only [BufferPoolState.place]
    rcases eq_or_ne x f with rfl | hx
    · rcases eq_or_ne key' key with rfl | hne
      · simp
      · simp [hne, hne.symm, h.mem_iff, hk]
    · rcases eq_or_ne key' key with rfl | hne
      · have hnot : (s.frames x).key ≠ some key' := fun e => by
          simp [(h.mem_iff key' x).mpr e] at ht
        simp [hx, hx.symm, hnot]
      · simpa [hx, hne] using h.mem_iff key' x
  free x hx := by
    have hne : x ≠ f := by rintro rfl; exact hf hx
    simpa [BufferPoolState.place, hne] using h.free x hx
  idle x hx := by
    rcases eq_or_ne x f with rfl | hne
    · simp [BufferPoolState.place] at hx
    · simp only [BufferPoolState.place, update_of_ne hne] at hx ⊢
      exact h.idle x hx
  registered x key' hx := by
    rcases eq_or_ne x f with rfl | hne
    · simp only [BufferPoolState.place, update_self, Option.some.injEq] at hx
      exact hx ▸ hu
    · simp only [BufferPoolState.place, update_of_ne hne] at hx
      exact h.registered x key' hx
  valid := h.valid
  fresh := h.fresh

end Table

theorem order_new : Order (BufferPoolState.new F cap) [] :=
  ⟨rfl, List.nodup_nil, List.nodup_finRange cap, fun f => by simp [BufferPoolState.new]⟩

theorem inv_new [LawfulPageStore F] : Inv (BufferPoolState.new F cap) [] where
  order := ⟨[], order_new⟩
  table := {
    mem_iff := fun _ _ => by simp [BufferPoolState.new, Frame.new]
    free := fun _ _ => rfl
    idle := fun _ _ => ⟨rfl, rfl⟩
    registered := fun _ _ hk => by simp [BufferPoolState.new, Frame.new] at hk
    valid := fun _ _ hf => by simp [BufferPoolState.new] at hf
    fresh := fun _ _ => rfl }
  pinned := ⟨fun _ => rfl, fun _ hg => by simp at hg⟩

end Redbase.Buffer
