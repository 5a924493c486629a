import Mathlib.Data.Fintype.Card
import Redbase.Buffer.Invariant

/-!
# The list of frames in use

Its operations are those of a doubly linked list, and `acquire_frame` finds the frame that was not
pinned for the longest time.
-/

namespace Redbase.Buffer

open Prog Bytes Page Function Linked

variable {F : Type} {cap : Nat} {s : BufferPoolState F cap} {l : List (Fin cap)} {f x : Fin cap}

namespace BufferPoolState

theorem modifyFrame_frames (s : BufferPoolState F cap) (f x : Fin cap) (c : Frame cap → Frame cap) :
    (s.modifyFrame f c).frames x = if x = f then c (s.frames f) else s.frames x :=
  update_apply _ _ _ _

theorem modifyFrame_self {c : Frame cap → Frame cap} (h : c (s.frames f) = s.frames f) :
    s.modifyFrame f c = s := by
  rw [modifyFrame, h, update_eq_self]

@[simp] theorem links_withLinks (s : BufferPoolState F cap) (L : Links (Fin cap)) :
    (s.withLinks L).links = L := rfl

@[simp] theorem withLinks_withLinks (s : BufferPoolState F cap) (L L' : Links (Fin cap)) :
    (s.withLinks L).withLinks L' = s.withLinks L' := rfl

/-- Changing anything but its links keeps a frame's place in the list. -/
theorem links_modifyFrame {c : Frame cap → Frame cap}
    (hn : (c (s.frames f)).next = (s.frames f).next)
    (hp : (c (s.frames f)).prev = (s.frames f).prev) : (s.modifyFrame f c).links = s.links := by
  simp only [links, modifyFrame_frames]
  congr 1
  · funext x
    split
    next h => rw [hn, h]
    next => rfl
  · funext x
    split
    next h => rw [hp, h]
    next => rfl

theorem linkHead_eq (s : BufferPoolState F cap) (f : Fin cap) :
    s.linkHead f = s.withLinks (s.links.linkHead f) := by
  unfold linkHead
  cases h : s.mruHead with
  | none =>
      simp only [modifyFrame, withLinks, links, Links.linkHead, h]
      congr 1
      funext x
      rcases eq_or_ne x f with rfl | hx
      · simp
      · simp [hx]
  | some old =>
      simp only [modifyFrame, withLinks, links, Links.linkHead, h]
      congr 1
      funext x
      rcases eq_or_ne x old with rfl | hx
      · rcases eq_or_ne x f with rfl | hx' <;> simp [*]
      · rcases eq_or_ne x f with rfl | hx' <;> simp [*]

theorem bypassPrev_eq (s : BufferPoolState F cap) (f : Fin cap) (prev next : Option (Fin cap)) :
    s.bypassPrev f prev next = s.withLinks { s.links with
      head := if prev = none ∧ s.links.head = some f then next else s.links.head
      next := match prev with
        | some p => update s.links.next p next
        | none => s.links.next } := by
  cases prev with
  | some p =>
      simp only [bypassPrev, modifyFrame, withLinks, links, reduceCtorEq, false_and, if_false]
      congr 1
      funext x
      rcases eq_or_ne x p with rfl | hx <;> simp [*]
  | none =>
      by_cases h : s.mruHead = some f <;> simp [bypassPrev, withLinks, links, h]

theorem bypassNext_eq (s : BufferPoolState F cap) (f : Fin cap) (prev next : Option (Fin cap)) :
    s.bypassNext f prev next = s.withLinks { s.links with
      tail := if next = none ∧ s.links.tail = some f then prev else s.links.tail
      prev := match next with
        | some n => update s.links.prev n prev
        | none => s.links.prev } := by
  cases next with
  | some n =>
      simp only [bypassNext, modifyFrame, withLinks, links, reduceCtorEq, false_and, if_false]
      congr 1
      funext x
      rcases eq_or_ne x n with rfl | hx <;> simp [*]
  | none =>
      by_cases h : s.lruTail = some f <;> simp [bypassNext, withLinks, links, h]

theorem clearLinks_eq (s : BufferPoolState F cap) (f : Fin cap) :
    s.modifyFrame f (fun frame => { frame with prev := none, next := none }) =
      s.withLinks { s.links with next := update s.links.next f none,
                                 prev := update s.links.prev f none } := by
  simp only [modifyFrame, withLinks, links]
  congr 1
  funext x
  rcases eq_or_ne x f with rfl | hx <;> simp [*]

theorem unlink_eq (s : BufferPoolState F cap) (f : Fin cap) :
    s.unlink f = s.withLinks (s.links.unlink f) := by
  simp only [unlink, bypassPrev_eq, bypassNext_eq, clearLinks_eq, links_withLinks,
    withLinks_withLinks, Links.unlink]
  congr 2
  · rw [show s.links.prev f = (s.frames f).prev from rfl]
    cases (s.frames f).prev <;> rfl
  · rw [show s.links.next f = (s.frames f).next from rfl]
    cases (s.frames f).next <;> rfl

theorem touch_eq (s : BufferPoolState F cap) (f : Fin cap) :
    s.touch f = s.withLinks ((s.links.unlink f).linkHead f) := by
  rw [touch, linkHead_eq, unlink_eq, links_withLinks, withLinks_withLinks]

theorem unlink_of_links (hl : s.links = Links.ofList l) (hn : l.Nodup) :
    s.unlink f = s.withLinks (Links.ofList (l.erase f)) := by
  rw [unlink_eq, hl, Links.unlink_ofList hn]

theorem touch_of_links (hl : s.links = Links.ofList l) (hn : l.Nodup) :
    s.touch f = s.withLinks (Links.ofList (f :: l.erase f)) := by
  rw [touch_eq, hl, Links.unlink_ofList hn, Links.linkHead_ofList (hn.erase f) hn.not_mem_erase]

/-- A frame that was taken out of the list is put back at its head. -/
theorem touch_unlink_of_links (hl : s.links = Links.ofList l) (hn : l.Nodup) :
    (s.unlink f).touch f = s.withLinks (Links.ofList (f :: l.erase f)) := by
  rw [unlink_of_links hl hn, touch_of_links (links_withLinks _ _) (hn.erase f),
    List.erase_of_not_mem hn.not_mem_erase, withLinks_withLinks]

/-! ## Single steps -/

/-- The frame without its page. -/
def forget (f : Fin cap) (s : BufferPoolState F cap) : BufferPoolState F cap :=
  { s with
    pageTable := match (s.frames f).key with
      | some key => update s.pageTable key none
      | none => s.pageTable
    frames := update s.frames f { s.frames f with key := none, dirty := false } }

@[simp] theorem forget_links (f : Fin cap) (s : BufferPoolState F cap) :
    (s.forget f).links = s.links := by
  simp only [links, forget]
  congr 1 <;> funext x <;> rcases eq_or_ne x f with rfl | hx <;> simp [*]

section Steps

variable {α : Type} {Q : α → BufferPoolState F cap → Prop}
  {E : Stop BufferPoolError → BufferPoolState F cap → Prop}

theorem wp_withFile {fileId : Nat} {file : F} {m : EStateM PageStoreError F α}
    (hf : s.files fileId = some file) :
    wp (withFile fileId m) Q E s ↔
      wp m (fun a file => Q a { s with files := update s.files fileId (some file) })
        (fun e file => E (.error (.pageStore e))
          { s with files := update s.files fileId (some file) })
        file := by
  simp only [wp, withFile, hf]
  cases m file <;> rfl

theorem wp_withFile_unknown {fileId : Nat} {m : EStateM PageStoreError F α}
    (hf : s.files fileId = none) :
    wp (withFile fileId m) Q E s ↔ E (.error (.unknownFile fileId)) s := by
  simp only [wp, withFile, hf]

theorem wp_recycleFrame {Q : Unit → BufferPoolState F cap → Prop} (hp : (s.frames f).pinCount = 0) :
    wp (recycleFrame f) Q E s ↔ Q () ((s.forget f).unlink f) := by
  unfold recycleFrame
  simp only [wp_bind, wp_get, wp_ite, hp, ne_eq, not_true, if_false, wp_modify]
  cases hk : (s.frames f).key <;> simp [forget, modifyFrame, hk]

theorem wp_evictFrame {Q : Unit → BufferPoolState F cap → Prop} (hp : (s.frames f).pinCount = 0) :
    wp (evictFrame f) Q E s ↔
      Q () { (s.forget f).unlink f with freeList := f :: ((s.forget f).unlink f).freeList } := by
  unfold evictFrame
  simp only [wp_bind, wp_get, wp_ite, hp, ne_eq, not_true, if_false, wp_modify, wp_recycleFrame hp]

/-- The frame with a page, pinned once. -/
def place (f : Fin cap) (key : BufferKey) (data : PageData) (dirty : Bool)
    (s : BufferPoolState F cap) :
    BufferPoolState F cap :=
  { s with
    pageTable := update s.pageTable key (some f)
    frames := update s.frames f { s.frames f with key := some key, data, dirty, pinCount := 1 } }

@[simp] theorem place_links (f : Fin cap) (key : BufferKey) (data : PageData) (dirty : Bool)
    (s : BufferPoolState F cap) : (s.place f key data dirty).links = s.links := by
  simp only [links, place]
  congr 1 <;> funext x <;> rcases eq_or_ne x f with rfl | hx <;> simp [*]

theorem wp_installFrame {Q : Unit → BufferPoolState F cap → Prop} {key : BufferKey}
    {data : PageData} {dirty : Bool} (h : s.pageTable key = none) :
    wp (installFrame f key data dirty) Q E s ↔ Q () ((s.place f key data dirty).touch f) := by
  unfold installFrame
  simp [h, modifyFrame, place]

end Steps

variable [PageStore F]

theorem wp_flushFrameIfDirty {Q : Unit → BufferPoolState F cap → Prop}
    {E : Stop BufferPoolError → BufferPoolState F cap → Prop}
    (hclean : (s.frames f).dirty = false → Q () s)
    (hdirty : (s.frames f).dirty = true → ∃ key file, (s.frames f).key = some key ∧
      s.files key.fileId = some file ∧
      wp (do PageStore.writePage key.pageId (s.frames f).data; PageStore.flush)
        (fun _ file => Q () (modifyFrame f (fun frame => { frame with dirty := false })
          { s with files := update s.files key.fileId (some file) }))
        (fun e file => E (.error (.pageStore e))
          { s with files := update s.files key.fileId (some file) }) file) :
    wp (flushFrameIfDirty f) Q E s := by
  unfold flushFrameIfDirty
  simp only [wp_bind, wp_get, wp_ite, wp_pure]
  split
  next h => exact hclean h
  next h =>
    obtain ⟨key, file, hk, hfile, hw⟩ := hdirty (by simpa using h)
    simpa only [hk, wp_bind, wp_withFile hfile, wp_modify] using hw

/-- A flush changes only files and clears the dirty bit. -/
theorem flushFrameIfDirty_frame (f : Fin cap) (s : BufferPoolState F cap) :
    wp (flushFrameIfDirty f)
      (fun _ t => ∃ files, t = modifyFrame f (fun frame => { frame with dirty := false })
        { s with files })
      (fun _ t => ∃ files, t = { s with files }) s := by
  unfold flushFrameIfDirty
  simp only [wp_bind, wp_get, wp_ite, wp_pure]
  split
  next h => exact ⟨s.files, (modifyFrame_self (by simp [← h])).symm⟩
  next h =>
    cases hk : (s.frames f).key with
    | none => exact ⟨s.files, rfl⟩
    | some key =>
        simp only [wp_bind]
        cases hfile : s.files key.fileId with
        | none => exact (wp_withFile_unknown hfile).mpr ⟨s.files, rfl⟩
        | some file =>
            rw [wp_withFile hfile]
            exact wp_mono (wp_true _ _) (fun _ file _ => ⟨_, rfl⟩) fun _ file _ => ⟨_, rfl⟩

/-! ## Finding a frame -/

/-- `f` is the last frame of the list that is not pinned. -/
structure LastUnpinned (s : BufferPoolState F cap) (l : List (Fin cap)) (f : Fin cap) : Prop where
  unpinned : (s.frames f).pinCount = 0
  later : ∃ l₁ l₂, l = l₁ ++ f :: l₂ ∧ ∀ x ∈ l₂, (s.frames x).pinCount ≠ 0

/-- The walk from the tail takes the first frame that is not pinned. -/
theorem acquireFrom_spec {Q : Fin cap → BufferPoolState F cap → Prop}
    {E : Stop BufferPoolError → BufferPoolState F cap → Prop} {p : List (Fin cap)}
    {o : Option (Fin cap)} (fuel : Nat) (hc : Chain s.links.prev some none o p)
    (hp : p.length ≤ fuel)
    (hnone : (∀ f ∈ p, (s.frames f).pinCount ≠ 0) → E (.error .noFrameAvailable) s)
    (hsome : ∀ f, LastUnpinned s p.reverse f →
      wp (do flushFrameIfDirty f; recycleFrame f; modify (touch f); return f) Q E s) :
    wp (acquireFrom fuel o) Q E s := by
  induction fuel generalizing o p with
  | zero =>
      cases List.length_eq_zero_iff.mp (Nat.le_zero.mp hp)
      cases hc
      exact hnone (by simp)
  | succ fuel ih =>
      cases hc with
      | nil => exact hnone (by simp)
      | @cons f p hc =>
          simp only [acquireFrom, wp_bind, wp_get, wp_ite]
          split
          next h0 =>
            have hlast : LastUnpinned s (f :: p).reverse f :=
              ⟨h0, p.reverse, [], List.reverse_cons .., by simp⟩
            simpa only [wp_bind] using hsome f hlast
          next h0 =>
            refine ih hc (by simpa using hp) (fun h => hnone ?_) fun x hx => hsome x ?_
            · intro x hx
              rcases List.mem_cons.mp hx with rfl | hx
              · exact h0
              · exact h x hx
            · obtain ⟨hx0, l₁, l₂, hl, hpinned⟩ := hx
              refine ⟨hx0, l₁, l₂ ++ [f],
                by rw [List.reverse_cons, hl, List.append_assoc, List.cons_append], ?_⟩
              intro y hy
              rcases List.mem_append.mp hy with hy | hy
              · exact hpinned y hy
              · obtain rfl := List.mem_singleton.mp hy
                exact h0

theorem acquireFrame_spec {Q : Fin cap → BufferPoolState F cap → Prop}
    {E : Stop BufferPoolError → BufferPoolState F cap → Prop} (ho : Order s l)
    (hfree : ∀ f rest, s.freeList = f :: rest →
      Q f (withLinks { s with freeList := rest } (Links.ofList (f :: l))))
    (hnone : s.freeList = [] → (∀ f, (s.frames f).pinCount ≠ 0) → E (.error .noFrameAvailable) s)
    (hsome : s.freeList = [] → ∀ f, LastUnpinned s l f →
      wp (flushFrameIfDirty f)
        (fun _ t => Q f ((t.forget f).withLinks (Links.ofList (f :: l.erase f)))) E s) :
    wp acquireFrame Q E s := by
  unfold acquireFrame
  simp only [wp_bind, wp_get]
  cases hfl : s.freeList with
  | cons f rest =>
      simp only [wp_bind, wp_modify, wp_pure]
      have hf : f ∉ l := fun h => (ho.mem_iff f).mp h (by simp [hfl])
      rw [linkHead_eq]
      have hl : links { s with freeList := rest } = Links.ofList l := ho.links
      rw [hl, Links.linkHead_ofList ho.nodup hf]
      exact hfree f rest hfl
  | nil =>
      have hmem : ∀ f, f ∈ l := fun f => (ho.mem_iff f).mpr (by simp [hfl])
      have hc := Links.chain_reverse_ofList ho.nodup
      rw [← ho.links] at hc
      refine acquireFrom_spec cap hc ?_ (fun h => hnone hfl fun f => h f (by simp [hmem f])) ?_
      · simpa using ho.nodup.length_le_card
      · intro f hlast
        rw [List.reverse_reverse] at hlast
        simp only [wp_bind]
        refine wp_mono (wp_and (hsome hfl f hlast) (flushFrameIfDirty_frame f s)) ?_
          fun _ _ h => h.1
        rintro _ t ⟨hQ, files, rfl⟩
        rw [wp_recycleFrame (by simpa [modifyFrame_frames] using hlast.unpinned)]
        simp only [wp_modify, wp_pure]
        rwa [touch_unlink_of_links _ ho.nodup]
        rw [forget_links, links_modifyFrame rfl rfl]
        exact ho.links

end BufferPoolState

end Redbase.Buffer
