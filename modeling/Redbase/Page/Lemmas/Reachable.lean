import Redbase.Page.Lemmas.Contents
import Redbase.Page.Lemmas.Faults
import Redbase.Page.Lemmas.Links

/-!
# Every page file is steady

However a client uses a page file, and whatever bytes it was opened from.
-/

namespace Redbase.Page

open Prog Bytes PageFile ByteIo

variable {I : Type} [ReliableIo I] {s t : PageFile I} {p : Nat} {c : List UInt8} {file : PageFile I}

theorem steady_of_opened (ho : Opened c file) : Steady file where
  coherent := by
    have hlength := ho.openable.length
    have hcount := (FileHeader.read_bounds (headerAt c)).2
    rw [← ho.header, ← ho.content] at hlength
    rw [← ho.header] at hcount
    refine ⟨hlength, fun p hp => ?_, fun _ p hp => ?_, fun _ => ?_, hcount⟩
    · rw [ho.loadedPageId] at hp
      cases hp
    · rw [ho.loadedPageId] at hp
      cases hp
    · rw [ho.content, ho.header]
  link := by
    rw [ho.header]
    exact (FileHeader.read_bounds _).1

theorem Steady.setPageData (h : Steady s) (hd : s.loadedPageDirty = true) (d : PageData) :
    Steady (s.setPageData d) :=
  ⟨h.coherent.setPageData hd d, h.link⟩

theorem disposePage_steady (h : Steady s) (p : Nat) :
    wp (disposePage p) (fun _ t => Steady t) (fun _ t => Steady t) s := by
  unfold disposePage
  simp only [wp_bind]
  by_cases hp : p < s.header.numPages
  · refine wp_mono (loadPage_spec h.coherent hp) (fun _ t hl => ?_) fun _ _ => False.elim
    simp only [wp_get, wp_ite, wp_bind, wp_throw, wp_modify, writeCurrentPageHeader,
      PageFile.setPageData, hl.header]
    split
    next => exact hl.samePages.steady h (hl.coherent h.coherent hp)
    next => exact ⟨hl.update h.coherent hp _ rfl (by simp), isI32_asI32 (h.coherent.lt_pageId hp)⟩
  · refine wp_mono (loadPage_out_of_range (Nat.le_of_not_lt hp)) (fun _ _ => False.elim) ?_
    rintro _ _ ⟨-, rfl⟩
    exact h

theorem step_steady (h : Steady s) (op : Op) : Steady (step s op).1 := by
  cases op with
  | allocate change =>
      have hw := allocatePage_contents h
      cases hs : allocatePage s with
      | error e t =>
          simp only [step, guardReply, hs]
          exact (wp_error hs hw).1
      | ok g t =>
          obtain ⟨-, ht, hd⟩ := wp_ok hs hw
          simp only [step, guardReply, hs]
          exact ht.steady.setPageData hd _
  | read p =>
      have hw := readPage_contents h p
      cases hs : readPage p s with
      | error e t =>
          simp only [step, hs]
          exact (wp_error hs hw).1.1
      | ok g t =>
          simp only [step, hs]
          exact (wp_ok hs hw).1.1
  | write p change =>
      have hw := fun d => writePage_contents h p d
      simp only [wp_bind, wp_modify] at hw
      cases hs : writePage p s with
      | error e t =>
          simp only [step, guardReply, hs]
          exact (wp_error hs (hw (Block.zero _))).1.1
      | ok g t =>
          simp only [step, guardReply, hs]
          exact (wp_ok hs (hw (change g.data))).2.steady
  | dispose p =>
      have hw := disposePage_steady h p
      cases hs : disposePage p s with
      | error e t =>
          have ht : Steady t := (wp_error hs hw :)
          simpa only [step, unitReply, hs] using ht
      | ok _ t =>
          have ht : Steady t := (wp_ok hs hw :)
          simpa only [step, unitReply, hs] using ht
  | flush =>
      obtain ⟨_, t, hs, ht, -⟩ := exists_ok_of_wp (flush_contents h)
      simp only [step, unitReply, hs]
      exact ht
  | reopen =>
      cases hs : PageFile.open s.drop with
      | error e io =>
          simp only [step, hs]
          exact h
      | ok t io =>
          have ho : Opened (content s.drop) t := (wp_ok hs (open_faulty s.drop) :)
          simp only [step, hs]
          exact steady_of_opened ho

theorem Reachable.steady (h : Reachable s) : Steady s := by
  induction h with
  | @«open» io io' s hs =>
      have ho : Opened (content io) s := (wp_ok hs (open_faulty io) :)
      exact steady_of_opened ho
  | @create io s hs =>
      obtain ⟨t, ht, hr⟩ := create_spec io
      rw [hs] at ht
      cases ht
      exact ⟨hr.coherent, hr.link_isI32⟩
  | step op _ ih => exact step_steady ih op

end Redbase.Page
