import Redbase.Buffer.History
import Redbase.Buffer.Lemmas.Recency
import Redbase.Buffer.Lemmas.Rejected

/-!
# The buffer pool

The structure of the pool after any run, whatever the page files answer, and what clients read when
the page files do not fail.
-/

namespace Redbase.Buffer

open Prog Bytes Page Function Linked BufferPoolState

/-! ## Structure -/

section Structure

variable {F : Type} [LawfulPageStore F] {cap : Nat} {P : World F cap → Event F cap → Prop}
  {s : World F cap} {h : List (Event F cap × Reply F cap)}

/-- The page table and the frames agree. -/
structure WellFormed (s : World F cap) : Prop where
  table : ∀ key f, s.pool.pageTable key = some f ↔ (s.pool.frames f).key = some key
  order : ∃ l, Chain (fun f => (s.pool.frames f).next) some none s.pool.mruHead l ∧
    Chain (fun f => (s.pool.frames f).prev) some none s.pool.lruTail l.reverse ∧
    (l ++ s.pool.freeList).Nodup ∧ ∀ f, f ∈ l ++ s.pool.freeList
  pins : ∀ f, (s.pool.frames f).pinCount = s.guards.countP (·.frameId = f)
  guards : ∀ g ∈ s.guards, (s.pool.frames g.frameId).key = some g.key
  idle : ∀ f, (s.pool.frames f).key = none →
    (s.pool.frames f).pinCount = 0 ∧ (s.pool.frames f).dirty = false
  registered : ∀ f key, (s.pool.frames f).key = some key → (s.pool.files key.fileId).isSome

/-- After any run the pool is well formed, and no step fails because it is not. -/
theorem run_wellFormed (hr : World.Run P h s) (hp : s.poisoned = false) :
    WellFormed s ∧ ∀ e, s.Possible e → ∀ why, (s.step e).2 = .failed why → Expected why := by
  have hi := Run.inv hr hp
  obtain ⟨l, hl⟩ := hi.order
  refine ⟨⟨hi.table.mem_iff, ⟨l, ?_, ?_, ?_, fun f => ?_⟩, hi.pinned.count, hi.pinned.key,
    hi.table.idle, fun f key hk => ?_⟩, fun e he => (step_kept hp hi e he).2⟩
  · have hc := Links.chain_ofList hl.nodup
    rwa [← hl.links] at hc
  · have hc := Links.chain_reverse_ofList hl.nodup
    rwa [← hl.links] at hc
  · exact List.nodup_append.mpr ⟨hl.nodup, hl.free_nodup, fun f hf f' hf' he =>
      (hl.mem_iff f).mp hf (he ▸ hf')⟩
  · rw [List.mem_append, hl.mem_iff]
    exact (em (f ∈ s.pool.freeList)).symm
  · obtain ⟨file, hfile, -⟩ := hi.table.registered f key hk
    simp [hfile]

end Structure

/-- A page file that was just created. -/
def createdFile : PageFile DiskPageIo := final (PageFile.create ⟨[]⟩)

theorem createdFile_valid : LawfulPageStore.Valid createdFile := by
  obtain ⟨s, he, hs⟩ := create_spec (DiskPageIo.mk [])
  exact ⟨Store.empty, by rw [createdFile, he]; exact hs⟩

/-- Two pages go through one frame; the third client finds no frame. -/
theorem run_wellFormed_evict :
    ∃ (h : List (Event (PageFile DiskPageIo) 1 × Reply (PageFile DiskPageIo) 1))
      (s : World (PageFile DiskPageIo) 1),
      World.Run (fun _ _ => True) h s ∧ h.length = 5 ∧ s.guards.length = 1 ∧ WellFormed s := by
  let g : Guard 1 := ⟨0, ⟨0, 0⟩, true⟩
  have r := World.Run.new (F := PageFile DiskPageIo) (P := fun (_ : World _ 1) _ => True)
  have r := r.step (.registerFile createdFile) createdFile_valid trivial
  have r := r.step (.allocatePage 0) trivial trivial
  have r := r.step (.drop g) (show g ∈ _ by decide) trivial
  have r := r.step (.allocatePage 0) trivial trivial
  have r := r.step (.getPage 0 0) trivial trivial
  exact ⟨_, _, r, rfl, by decide, (run_wellFormed r (by decide)).1⟩

/-! ## Replacement -/

section Replacement

variable {F : Type} [DurablePageStore F] {cap : Nat} {P : World F cap → Event F cap → Prop}
  {s : World F cap} {h : List (Event F cap × Reply F cap)} {e : Event F cap}

/-- How a request for an uncached page finds its frame, where `log` lists the frames as they were
touched, the last touch first. -/
structure ReplacesOldest (log : List (Fin cap)) (s : World F cap) (e : Event F cap) : Prop where
  free : s.pool.freeList ≠ [] → ∀ key f, s.pool.pageTable key = some f →
    (s.step e).1.pool.pageTable key = some f
  oldest : s.pool.freeList = [] → ∀ f u, acquireFrame s.pool = .ok f u →
    (s.pool.frames f).pinCount = 0 ∧ f ∈ log ∧
    ∀ x, (s.pool.frames x).pinCount = 0 → x ≠ f → log.idxOf x < log.idxOf f
  others : ∀ f u, acquireFrame s.pool = .ok f u →
    ∀ key x, s.pool.pageTable key = some x → x ≠ f → (s.step e).1.pool.pageTable key = some x
  stored : ∀ f u, acquireFrame s.pool = .ok f u → OnDisk s.pool u f
  taken : ∀ g d, (s.step e).2 = .guard g d → ∃ u, acquireFrame s.pool = .ok g.frameId u
  fails : (s.step e).2 = .failed (.error .noFrameAvailable) ↔ ∀ f, ∃ g ∈ s.guards, g.frameId = f
  terminates : (s.step e).2 ≠ .failed .diverge

theorem pinned_iff (hi : Inv s.pool s.guards) {f : Fin cap} :
    (s.pool.frames f).pinCount ≠ 0 ↔ ∃ g ∈ s.guards, g.frameId = f := by
  rw [hi.pinned.count, Nat.ne_zero_iff_zero_lt, List.countP_pos_iff]
  simp only [decide_eq_true_eq]

/-- Without a free frame a miss takes the unpinned frame whose last touch is the oldest, and a page
that was changed is in its file by then; it fails for want of a frame just when all are pinned. -/
theorem miss_replacesOldest (hr : World.Run P h s) (hp : s.poisoned = false)
    (hm : Misses s.pool e) :
    ReplacesOldest (World.touchLog (h.map Prod.fst)) s e := by
  have hi := Run.inv hr hp
  obtain ⟨l, ho, hl⟩ := Run.recent hr hp
  obtain ⟨source, dirty, hstep, hsource, -⟩ := step_of_miss hm
  have hrun := request_outcome hi ho hsource dirty
  have hspares : ∀ f u, acquireFrame s.pool = .ok f u → Spares s.pool (s.step e).1.pool f := by
    intro f u hu
    rw [hstep]
    refine call_cases (R := fun t => Spares s.pool t.1.pool f) hp hrun ?_ ?_
    · rintro g pool ⟨⟨u', hu'⟩, -, hs⟩
      cases hu.symm.trans hu'
      exact hs
    · rintro why pool (⟨f', u', hu', -, -, hs⟩ | ⟨hu', -, -⟩)
      · cases hu.symm.trans hu'
        exact hs
      · cases hu.symm.trans hu'
  have hlast := acquireFrame_last hi ho
  refine ⟨fun hne key x hx => ?_, fun hnil f u hu => ?_, fun f u hu key x hx hne =>
    hspares f u hu key x hx (Or.inl hne),
    fun f u hu => (wp_ok hu (acquireFrame_onDisk hi) :), fun g d hg => ?_, ?_, ?_⟩
  · rw [hstep]
    refine call_cases (R := fun t => t.1.pool.pageTable key = some x) hp hrun ?_ ?_
    · rintro g pool ⟨-, -, hs⟩
      exact hs key x hx (Or.inr hne)
    · rintro why pool (⟨f, u, -, -, -, hs⟩ | ⟨-, -, hs⟩)
      · exact hs key x hx (Or.inr hne)
      · exact hs.symm ▸ hx
  · obtain ⟨hf, l₁, l₂, rfl, hpinned⟩ := (wp_ok hu hlast).1 hnil
    refine ⟨hf, hl.logged f (by simp), fun x hx hxf => hl.idxOf_lt ?_⟩
    have hmem : x ∈ l₁ ++ f :: l₂ := (ho.mem_iff x).mpr (by simp [hnil])
    rcases List.mem_append.mp hmem with hm | hm
    · exact hm
    · rcases List.mem_cons.mp hm with rfl | hm
      · exact absurd rfl hxf
      · exact absurd hx (hpinned x hm)
  · rw [hstep] at hg
    refine call_cases (R := fun t => t.2 = .guard g d → _) hp hrun ?_ ?_ hg
    · rintro g' pool ⟨hu, -⟩ he
      cases he
      exact hu
    · rintro why pool - he
      cases he
  · simp only [← pinned_iff hi]
    constructor
    · intro hfail
      rw [hstep] at hfail
      refine call_cases (R := fun t => t.2 = .failed (.error .noFrameAvailable) → _) hp
        hrun ?_ ?_ hfail
      · rintro g pool - he
        cases he
      · rintro why pool (⟨f, u, -, ⟨hne, -⟩, -⟩ | ⟨hu, -⟩) he
        · cases he
          exact absurd rfl hne
        · cases he
          exact (wp_error hu hlast).mp rfl
    · intro hall
      rw [hstep]
      refine call_cases (R := fun t => t.2 = .failed (.error .noFrameAvailable)) hp hrun ?_ ?_
      · rintro g pool ⟨⟨u, hu⟩, -⟩
        obtain ⟨x, hx⟩ := (wp_ok hu hlast).2
        exact absurd hx (hall x)
      · rintro why pool (⟨f, u, hu, -⟩ | ⟨hu, -⟩)
        · obtain ⟨x, hx⟩ := (wp_ok hu hlast).2
          exact absurd hx (hall x)
        · rw [(wp_error hu hlast).mpr hall]
  · rw [hstep]
    refine call_cases (R := fun t => t.2 ≠ .failed .diverge) hp hrun ?_ ?_
    · rintro g pool -
      rintro ⟨⟩
    · rintro why pool (⟨f, u, -, ⟨-, hne⟩, -⟩ | ⟨hu, -⟩) he
      · cases he
        exact hne rfl
      · cases he
        exact (wp_error hu (acquireFrame_inv hi)).2

end Replacement

/-- Of two frames the one that was dropped first is taken. -/
theorem miss_replacesOldest_second :
    ∃ (h : List (Event (PageFile DiskPageIo) 2 × Reply (PageFile DiskPageIo) 2))
      (s : World (PageFile DiskPageIo) 2),
      World.Run (fun _ _ => True) h s ∧ World.touchLog (h.map Prod.fst) = [0, 1, 1, 0] ∧
        ReplacesOldest (World.touchLog (h.map Prod.fst)) s (.allocatePage 0) := by
  let g : Guard 2 := ⟨0, ⟨0, 0⟩, true⟩
  let g' : Guard 2 := ⟨1, ⟨0, 1⟩, true⟩
  have r := World.Run.new (F := PageFile DiskPageIo) (P := fun (_ : World _ 2) _ => True)
  have r := r.step (.registerFile createdFile) createdFile_valid trivial
  have r := r.step (.allocatePage 0) trivial trivial
  have r := r.step (.allocatePage 0) trivial trivial
  have r := r.step (.drop g') (show g' ∈ _ by decide) trivial
  have r := r.step (.drop g) (show g ∈ _ by decide) trivial
  exact ⟨_, _, r, by decide, miss_replacesOldest r (by decide) trivial⟩

/-! ## Refused requests -/

/-- In every state a request that is refused costs the pool nothing exactly if no frame was free and
the frame it took was empty. -/
theorem rejected_costsNothing_iff {F : Type} [AcceptingPageStore F] {cap : Nat}
    {P : World F cap → Event F cap → Prop} {s : World F cap} {h : List (Event F cap × Reply F cap)}
    {e : Event F cap} (hr : World.Run P h s) (he : Rejected s e) :
    CostsNothing s.pool (s.step e).1.pool ↔ TakesEmpty s.pool :=
  he.costsNothing_iff (Run.inv hr he.poisoned)

/-- Why a call failed. -/
def Reply.why {F : Type} {cap : Nat} : Reply F cap → Option (Stop BufferPoolError)
  | .failed why => some why
  | _ => none

theorem rejected_of_why {F : Type} [PageStore F] {cap : Nat} {s : World F cap}
    {fileId pageId p : Nat}
    (h : (s.step (.getPage fileId pageId)).2.why = some (.error (.pageStore (.invalidPageId p)))) :
    Rejected s (.getPage fileId pageId) := by
  refine ⟨_, ?_, Or.inr ⟨p, rfl⟩⟩
  cases hr : (s.step (.getPage fileId pageId)).2 with
  | failed why =>
      rw [hr] at h
      exact congrArg _ (Option.some.inj h)
  | _ =>
      rw [hr] at h
      cases h

/-- The page that is cached was used after the frame that a bad request has left empty: the second
bad request takes that frame again. -/
theorem rejected_costsNothing_behind :
    ∃ (h : List (Event (PageFile DiskPageIo) 2 × Reply (PageFile DiskPageIo) 2))
      (s : World (PageFile DiskPageIo) 2), World.Run (fun _ _ => True) h s ∧
        s.pool.pageTable ⟨0, 0⟩ = some 0 ∧ s.pool.freeList = [] ∧ Rejected s (.getPage 0 99) ∧
        CostsNothing s.pool (s.step (.getPage 0 99)).1.pool := by
  let g : Guard 2 := ⟨0, ⟨0, 0⟩, true⟩
  let g' : Guard 2 := ⟨0, ⟨0, 0⟩, false⟩
  have r := World.Run.new (F := PageFile DiskPageIo) (P := fun (_ : World _ 2) _ => True)
  have r := r.step (.registerFile createdFile) createdFile_valid trivial
  have r := r.step (.allocatePage 0) trivial trivial
  have r := r.step (.drop g) (show g ∈ _ by decide) trivial
  have r := r.step (.getPage 0 99) trivial trivial
  have r := r.step (.getPage 0 0) trivial trivial
  have r := r.step (.drop g') (show g' ∈ _ by decide) trivial
  obtain ⟨h, s, r, hp, hcached, he, hfree, hlast, hpin, hkey⟩ : ∃ h s,
      World.Run (fun (_ : World (PageFile DiskPageIo) 2) _ => True) h s ∧ s.poisoned = false ∧
      s.pool.pageTable ⟨0, 0⟩ = some 0 ∧ Rejected s (.getPage 0 99) ∧ s.pool.freeList = [] ∧
      s.pool.lruTail = some 1 ∧ (s.pool.frames 1).pinCount = 0 ∧ (s.pool.frames 1).key = none :=
    ⟨_, _, r, by decide, by decide, rejected_of_why (p := 99) (by decide), by decide, by decide,
      by decide, by decide⟩
  obtain ⟨l, ho⟩ := (Run.inv r hp).order
  have htail : l.getLast? = some 1 := (congrArg Links.tail ho.links).symm.trans hlast
  obtain ⟨l₁, rfl⟩ := List.getLast?_eq_some_iff.mp htail
  exact ⟨h, s, r, hcached, hfree, he, (rejected_costsNothing_iff r he).mpr
    ⟨hfree, l₁, 1, [], ho, hpin, List.forall_mem_nil _, hkey⟩⟩

/-- Two requests for a page that is not there: the first one takes the free frame and leaves it
empty, the second one takes the page of the other frame, though a frame without a page is there. -/
theorem rejected_evicts :
    ∃ (h : List (Event (PageFile DiskPageIo) 2 × Reply (PageFile DiskPageIo) 2))
      (s : World (PageFile DiskPageIo) 2), World.Run (fun _ _ => True) h s ∧ s.poisoned = false ∧
      Rejected s (.getPage 0 99) ∧ s.pool.freeList = [1] ∧
        (s.step (.getPage 0 99)).1.pool.freeList = [] ∧
      ¬ CostsNothing s.pool (s.step (.getPage 0 99)).1.pool ∧
      Rejected (s.step (.getPage 0 99)).1 (.getPage 0 99) ∧
      ((s.step (.getPage 0 99)).1.pool.frames 1).key = none ∧
      (s.step (.getPage 0 99)).1.pool.pageTable ⟨0, 0⟩ = some 0 ∧
      ((s.step (.getPage 0 99)).1.step (.getPage 0 99)).1.pool.pageTable ⟨0, 0⟩ = none := by
  let g : Guard 2 := ⟨0, ⟨0, 0⟩, true⟩
  have r := World.Run.new (F := PageFile DiskPageIo) (P := fun (_ : World _ 2) _ => True)
  have r := r.step (.registerFile createdFile) createdFile_valid trivial
  have r := r.step (.allocatePage 0) trivial trivial
  have r := r.step (.drop g) (show g ∈ _ by decide) trivial
  refine ⟨_, _, r,
    by rfl, ⟨_, rfl, Or.inr ⟨99, rfl⟩⟩, by rfl, by rfl, fun hc => ?_, ⟨_, rfl, Or.inr ⟨99, rfl⟩⟩,
    by rfl, by rfl, by rfl⟩
  have hfree := hc.freeList
  revert hfree
  decide

/-! ## Contents -/

section Contents

variable {I : Type} [ReliableIo I] {cap : Nat} {s : World (PageFile I) cap}
  {h : List (Event (PageFile I) cap × Reply (PageFile I) cap)}

/-- Clients see the last write to every page, and so does who gets a file back. -/
structure Faithful (h : List (Event (PageFile I) cap × Reply (PageFile I) cap))
    (s : World (PageFile I) cap) :
    Prop where
  live : ∀ g ∈ s.guards, lastWrite h g.key = some (s.pool.frames g.frameId).data
  get : ∀ fileId pageId g d, (s.step (.getPage fileId pageId)).2 = .guard g d ∨
    (s.step (.getPageMut fileId pageId)).2 = .guard g d →
      g.key = ⟨fileId, pageId⟩ ∧ lastWrite h ⟨fileId, pageId⟩ = some d
  removed : ∀ fileId file, (s.step (.removeFile fileId)).2 = .removed file →
    ∀ p, file.contents p = lastWrite h ⟨fileId, p⟩

/-- In a run whose writes find their frames dirty no write is lost. -/
theorem run_faithful (hr : World.Run WritesDirty h s) (hp : s.poisoned = false) : Faithful h s := by
  have hi := Run.inv hr hp
  have hb := Run.backed hr hp
  have hget : ∀ {key g} {t : BufferPoolState (PageFile I) cap}, Inv t (g :: s.guards) →
      Backed t (lastWrite h) → g.key = key → lastWrite h key = some (t.frames g.frameId).data := by
    rintro _ g t ht hbt rfl
    exact hbt.cached _ _ (ht.pinned.key g (by simp))
  refine ⟨fun g hg => hb.cached _ _ (hi.pinned.key g hg), fun i p g d hgd => ?_,
    fun i file hf => ?_⟩
  · rcases hgd with hgd | hgd
    · refine call_cases (R := fun t => t.2 = .guard g d → _) hp (getPage_backed hi hb i p) ?_ ?_ hgd
      · rintro g' pool ⟨ht, hbt, hk, -⟩ he
        cases he
        exact ⟨hk, hget ht hbt hk⟩
      · rintro _ _ _ ⟨⟩
    · refine call_cases (R := fun t => t.2 = .guard g d → _) hp
        (getPageMut_backed hi hb i p) ?_ ?_ hgd
      · rintro g' pool ⟨ht, hbt, ⟨hk, -⟩, -⟩ he
        cases he
        exact ⟨hk, hget ht hbt hk⟩
      · rintro _ _ _ ⟨⟩
  · refine call_cases (R := fun t => t.2 = .removed file → _) hp
      (removeFile_backed hi hb i) ?_ ?_ hf
    · rintro file' pool ⟨-, -, hc⟩ he
      cases he
      exact hc
    · rintro _ _ _ ⟨⟩

/-- The first byte that a guard shows. -/
def Reply.firstByte {F : Type} : Reply F cap → Option UInt8
  | .guard _ d => d.bytes.head?
  | _ => none

/-- A page that has contents can be had while a frame is free of guards. -/
theorem getPage_shows (hr : World.Run WritesDirty h s) (hp : s.poisoned = false) {i p : Nat}
    {d : PageData} (hd : lastWrite h ⟨i, p⟩ = some d) (hfile : (s.pool.files i).isSome)
    (hfree : ∃ f, (s.pool.frames f).pinCount = 0)
    (hpins : ∀ f, (s.pool.frames f).pinCount + 1 < 2 ^ 32) :
    ∃ g, (s.step (.getPage i p)).2 = .guard g d := by
  have hi := Run.inv hr hp
  have hb := Run.backed hr hp
  refine call_cases (R := fun t => ∃ g, t.2 = .guard g d) hp (getPage_backed hi hb i p) ?_ ?_
  · rintro g pool ⟨ht, hbt, hk, -⟩
    have hc := hbt.cached _ _ (ht.pinned.key g (by simp))
    rw [hk, hd] at hc
    cases hc
    exact ⟨g, rfl⟩
  · rintro why pool ⟨-, -, ⟨-, hall⟩ | ⟨-, hn⟩ | ⟨-, hn⟩ | ⟨-, f, hf⟩⟩
    · obtain ⟨f, hf⟩ := hfree
      exact absurd hf (hall f)
    · simp [hn] at hfile
    · simp [hn] at hd
    · exact absurd hf (Nat.not_le_of_lt (hpins f))

/-- The first byte of page 0 of a file that is given back. -/
def Reply.removedByte : Reply (PageFile I) cap → Option UInt8
  | .removed file => (file.contents 0).bind (·.bytes.head?)
  | _ => none

theorem Faithful.firstByte (hf : Faithful h s) {i : Nat} {b : UInt8}
    (hr : (s.step (.removeFile i)).2.removedByte = some b) :
    (lastWrite h ⟨i, 0⟩).bind (·.bytes.head?) = some b := by
  cases hs : (s.step (.removeFile i)).2 with
  | removed file =>
      rw [hs, Reply.removedByte, hf.removed i file hs 0] at hr
      exact hr
  | _ => simp [hs, Reply.removedByte] at hr

end Contents

/-- Written while dirty, the page survives its eviction. -/
theorem run_faithful_evict :
    ∃ (h : List (Event (PageFile DiskPageIo) 1 × Reply (PageFile DiskPageIo) 1))
      (s : World (PageFile DiskPageIo) 1),
      World.Run WritesDirty h s ∧ Faithful h s ∧
        (lastWrite h ⟨0, 0⟩).bind (·.bytes.head?) = some 7 ∧
        (s.step (.getPage 0 0)).2.firstByte = some 7 := by
  let g : Guard 1 := ⟨0, ⟨0, 0⟩, true⟩
  let g' : Guard 1 := ⟨0, ⟨0, 1⟩, true⟩
  have r := World.Run.new (F := PageFile DiskPageIo) (P := (WritesDirty : World _ 1 → _))
  have r := r.step (.registerFile createdFile) createdFile_valid trivial
  have r := r.step (.allocatePage 0) trivial trivial
  have r := r.step (.write g ((Block.zero _).write 0 [7])) ⟨by decide, rfl⟩
    (show _ = true by rfl)
  have r := r.step (.drop g) (show g ∈ _ by decide) trivial
  have r := r.step (.allocatePage 0) trivial trivial
  have r := r.step (.drop g') (show g' ∈ _ by decide) trivial
  obtain ⟨h, s, r, hp, hd, hs⟩ : ∃ h s, World.Run WritesDirty h s ∧ s.poisoned = false ∧
      (lastWrite h ⟨0, 0⟩).bind (·.bytes.head?) = some 7 ∧
      (s.pool.files 0).isSome ∧ (s.pool.frames 0).pinCount = 0 :=
    ⟨_, _, r, by rfl, by rfl, by decide⟩
  refine ⟨h, s, r, run_faithful r hp, hd, ?_⟩
  obtain ⟨d, hk, h₇⟩ := Option.bind_eq_some_iff.mp hd
  have hpin : ∀ f, (s.pool.frames f).pinCount = 0 := fun f => by rw [Subsingleton.elim f 0, hs.2]
  obtain ⟨g, hg⟩ := getPage_shows r hp hk hs.1 ⟨0, hs.2⟩ fun f => by rw [hpin f]; decide
  rw [hg]
  exact h₇

/-- `force_file` cleans the frame of a live write guard; what is written afterwards is dropped with
the frame. -/
theorem force_loses_write :
    ∃ (h : List (Event (PageFile DiskPageIo) 1 × Reply (PageFile DiskPageIo) 1))
      (s : World (PageFile DiskPageIo) 1),
      World.Run (fun _ _ => True) h s ∧ s.poisoned = false ∧ ¬ Faithful h s := by
  let g : Guard 1 := ⟨0, ⟨0, 0⟩, true⟩
  have r := World.Run.new (F := PageFile DiskPageIo) (P := fun (_ : World _ 1) _ => True)
  have r := r.step (.registerFile createdFile) createdFile_valid trivial
  have r := r.step (.allocatePage 0) trivial trivial
  have r := r.step (.forceFile 0 none) trivial trivial
  have r := r.step (.write g ((Block.zero _).write 0 [7])) ⟨by decide, rfl⟩ trivial
  have r := r.step (.drop g) (show g ∈ _ by decide) trivial
  refine ⟨_, _, r, by rfl, fun hf => ?_⟩
  have hb := hf.firstByte (i := 0) (b := 0) (by rfl)
  revert hb
  decide

end Redbase.Buffer
