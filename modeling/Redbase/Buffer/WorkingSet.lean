import Redbase.Buffer.Lemmas.WorkingSet
import Redbase.Buffer.Theorems

/-!
# The working set

With one guard at a time, as the record files use it, the pool holds the pages that were requested
last, as many as it has frames.
-/

namespace Redbase.Buffer

open Prog Bytes Page BufferPoolState World Recency

variable {F : Type} [LawfulPageStore F] {cap : Nat} {w : World F cap}
  {h : List (Event F cap × Reply F cap)}

/-- A page is cached just when it was requested and fewer others than there are frames were
requested since; so a pool with more frames caches what one with fewer does. -/
theorem run_workingSet (hr : World.Run OneGuard h w) (hp : w.poisoned = false) :
    (∀ key, w.pool.pageTable key ≠ none ↔ key ∈ requests h ∧ (since (requests h) key).card < cap) ∧
    ∀ (cap' : Nat) (h' : List (Event F cap' × Reply F cap')) (w' : World F cap'), cap ≤ cap' →
      World.Run OneGuard h' w' → w'.poisoned = false → requests h' = requests h →
        ∀ key, w.pool.pageTable key ≠ none → w'.pool.pageTable key ≠ none := by
  have hcached : ∀ {cap' : Nat} {h' : List (Event F cap' × Reply F cap')} {w' : World F cap'},
      World.Run OneGuard h' w' → w'.poisoned = false →
        ∀ key, w'.pool.pageTable key ≠ none ↔
          key ∈ requests h' ∧ (since (requests h') key).card < cap' := by
    intro cap' h' w' hr' hp' key
    obtain ⟨l, hl, -⟩ := (Run.caches hr' hp').places
    rw [← hl.mem_iff (Run.inv hr' hp'), mem_take_lastUsed]
  refine ⟨hcached hr hp, fun cap' h' w' hle hr' hp' heq key hkey => ?_⟩
  obtain ⟨hmem, hlt⟩ := (hcached hr hp key).mp hkey
  rw [hcached hr' hp', heq]
  exact ⟨hmem, Nat.lt_of_lt_of_le hlt hle⟩

/-- Two pages in one frame: the first one has gone. -/
theorem run_workingSet_two :
    ∃ (h : List (Event (PageFile DiskPageIo) 1 × Reply (PageFile DiskPageIo) 1))
        (w : World (PageFile DiskPageIo) 1),
      World.Run OneGuard h w ∧ requests h = [⟨0, 1⟩, ⟨0, 0⟩] ∧ w.pool.pageTable ⟨0, 1⟩ ≠ none ∧
        w.pool.pageTable ⟨0, 0⟩ = none := by
  let g : Guard 1 := ⟨0, ⟨0, 0⟩, true⟩
  have r := World.Run.new (F := PageFile DiskPageIo) (P := (OneGuard : World _ 1 → _))
  have r := r.step (.registerFile createdFile) createdFile_valid trivial
  have r := r.step (.allocatePage 0) trivial ⟨rfl, _, _, rfl⟩
  have r := r.step (.drop g) (show g ∈ _ by decide) trivial
  have r := r.step (.allocatePage 0) trivial ⟨rfl, _, _, rfl⟩
  obtain ⟨h, w, r, hp, hreq⟩ : ∃ h w, World.Run (OneGuard : World (PageFile DiskPageIo) 1 → _) h w ∧
      w.poisoned = false ∧ requests h = [⟨0, 1⟩, ⟨0, 0⟩] := ⟨_, _, r, by rfl, by rfl⟩
  obtain ⟨hcached, -⟩ := run_workingSet r hp
  rw [hreq] at hcached
  refine ⟨h, w, r, hreq, (hcached _).mpr (by decide), ?_⟩
  by_contra hne
  have hlt := ((hcached _).mp hne).2
  revert hlt
  decide

end Redbase.Buffer
