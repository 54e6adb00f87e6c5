import Toystar.Fs.FilePaths
import Toystar.Fs.FileWrites

/-!
# The temporary filesystem is a store of files

Every operation does what `Store.apply` says, so after any run the entries are those of
the store, and `read` through any descriptor returns what was last written through any
descriptor of that path (`file_store_refines`).
-/

namespace Toystar.Fs

open Toystar.Kernel
open Toystar.Klibc
open Toystar.Memory
open Toystar.Verified

variable {p₀ : Pmm} {mem₀ : ByteMem} {tmpfs : Nat}

namespace FileStore

variable {t t' : FileStore} {a : Store} {op : FileOp} {ops : List FileOp}

/-! ## Runs -/

theorem sound_boot (p₀ : Pmm) (mem₀ : ByteMem) (tmpfs : Nat) :
    (boot p₀ mem₀ tmpfs).Sound p₀ mem₀ :=
  { loading := Tmpfs.loading_init p₀ mem₀ tmpfs
    component := (Tmpfs.shape_init p₀ mem₀ tmpfs).component
    form := wellFormed_init p₀ mem₀ tmpfs
    kind := by
      intro m n hn
      obtain ⟨hm, rfl⟩ := List.getElem?_eq_some_iff.mp hn
      obtain rfl : m = 0 := by simpa [boot, Tmpfs.init, Tmpfs.new] using hm
      exact .inl ⟨rfl, rfl⟩
    tracks := ⟨fun _ => 1, [], fun _ => Nat.one_pos, tracks_init p₀ mem₀⟩
    pages := by simp [boot]
    boot := fun _ _ => rfl }

theorem refines_boot (p₀ : Pmm) (mem₀ : ByteMem) (tmpfs : Nat) :
    (boot p₀ mem₀ tmpfs).Refines .empty := by
  refine ⟨?_, .nil, rfl⟩
  funext path
  cases path with
  | nil => rfl
  | cons c path =>
      have hnone : (Tmpfs.init p₀ mem₀ tmpfs).tree.child 0 c = none := rfl
      show ((Tmpfs.init p₀ mem₀ tmpfs).lookup (c :: path)).bind _ = none
      unfold Tmpfs.lookup
      rw [show (Tmpfs.init p₀ mem₀ tmpfs).rootTmpfsNode = 0 from rfl,
        NameTree.walk_of_none hnone]
      rfl

/-- No operation faults, and each does what it should. -/
theorem Sound.step (hzero : p₀.bitmap.isBitSet 0 = true)
    (hreach : p₀.pages * PAGE_SIZE ≤ 2 ^ 47) (h : t.Sound p₀ mem₀) (ha : t.Refines a)
    (hop : t.Allowed op) :
    ∃ t', t.exec op = some t' ∧ t'.Sound p₀ mem₀ ∧ t'.Refines (a.apply op) := by
  cases op with
  | create dir ds b mode => exact h.create ha hzero hop.1 hop.2.1 hop.2.2
  | mkdir dir ds b => exact h.mkdir ha hop
  | openFile dir ds b mode => exact h.openFile ha hop.1 hop.2
  | write i w => exact h.write hzero hreach ha hop.1 hop.2.1 hop.2.2
  | alloc count => exact h.alloc hzero ha hop
  | free b => exact h.free ha hop
  | poke b offset v =>
      obtain ⟨f, hf, hoffset⟩ := hop
      exact h.poke ha hf hoffset

theorem run_sound (hzero : p₀.bitmap.isBitSet 0 = true)
    (hreach : p₀.pages * PAGE_SIZE ≤ 2 ^ 47) (hrun : Run Step (boot p₀ mem₀ tmpfs) ops t) :
    t.Sound p₀ mem₀ ∧ t.Refines (ops.foldl Store.apply .empty) := by
  refine hrun.follows (R := fun t a => t.Sound p₀ mem₀ ∧ t.Refines a) ?_
    ⟨sound_boot p₀ mem₀ tmpfs, refines_boot p₀ mem₀ tmpfs⟩
  intro t a op t' hs hstep
  obtain ⟨u, hu, hkeeps⟩ := hs.1.step hzero hreach hs.2 hstep.1
  obtain rfl : u = t' := Option.some.inj (hu.symm.trans hstep.2)
  exact hkeeps

/-! ## Reading -/

/-- `read` returns what the file is. -/
theorem Sound.read_eq {m : Nat} {n : TmpfsNode} {offset size : Nat}
    (hreach : p₀.pages * PAGE_SIZE ≤ 2 ^ 47) (h : t.Sound p₀ mem₀)
    (hn : t.fs.nodes[m]? = some n) (htype : t.fs.typeOf m = some .file)
    (hlt : offset + size < 2 ^ 64) :
    t.fs.read n.file offset size = .ok (Store.readResult (t.fs.contents m) offset size) := by
  obtain ⟨data, hisFile, hdvd⟩ := h.isFile hn htype
  have hdata := hisFile.data_eq hn
  unfold Store.readResult
  by_cases hle : offset + size ≤ 4096
  · obtain ⟨pages, left, hpos, htracks⟩ := h.tracks
    have hmem : (⟨data, pages m⟩ : Frames) ∈ t.buffers ++ t.fs.dataFrames pages ++ left :=
      List.mem_append_left _ (List.mem_append_right _ (Tmpfs.mem_dataFrames hn hdata))
    have hend : data + pages m * PAGE_SIZE ≤ p₀.pages * PAGE_SIZE := htracks.end_le hmem hdvd
    have hpage : PAGE_SIZE ≤ pages m * PAGE_SIZE := Nat.le_mul_of_pos_left _ (hpos m)
    rw [if_pos hle, hisFile.read_of_le hle, Tmpfs.copyOut]
    congr 2
    apply List.map_congr_left
    intro i hi
    rw [List.mem_range] at hi
    unfold PAGE_SIZE at *
    rw [Nat.mod_eq_of_lt (by omega), Nat.add_assoc]
    unfold Tmpfs.contents
    rw [if_pos (by omega), hn, Option.bind_some, hdata, Option.getD_some]
  · rw [if_neg hle, hisFile.read_of_gt hlt (Nat.lt_of_not_le hle)]

/-- Whatever is done with the filesystem and with the frames of others, from the start on:
the entries are those of a store of files, and so is what `read` returns through every
descriptor; the frames of others hold what they stored there; the tree is well formed;
nothing that was in use at the start was written; and no operation faults. -/
theorem file_store_refines (hzero : p₀.bitmap.isBitSet 0 = true)
    (hreach : p₀.pages * PAGE_SIZE ≤ 2 ^ 47) (hrun : Run Step (boot p₀ mem₀ tmpfs) ops t) :
    let a := ops.foldl Store.apply .empty
    t.fs.entry = a.entry ∧
      t.handles.length = a.handles.length ∧
      (∀ (i : Nat) (fd : FileDescription), t.handles[i]? = some fd →
        ∃ path bytes, a.handles[i]? = some path ∧ a.entry path = some (.file bytes) ∧
          ∀ offset size, offset + size < 2 ^ 64 →
            t.fs.read fd.file offset size = .ok (Store.readResult bytes offset size)) ∧
      t.buffers.map (Frames.bytes t.fs.mem) = a.buffers ∧
      t.fs.WellFormed ∧
      (∀ x, p₀.bitmap.isBitSet (x / PAGE_SIZE) = true → t.fs.mem x = mem₀ x) ∧
      ∀ op, t.Allowed op → ∃ t', t.exec op = some t' := by
  obtain ⟨h, ha⟩ := run_sound hzero hreach hrun
  refine ⟨ha.entry, ha.handles.length_eq, ?_, ha.buffers, h.form, h.boot, ?_⟩
  · intro i fd hfd
    obtain ⟨path, m, n, hpath, hm, hn, htype, hfile, hentry⟩ := ha.handle hfd
    refine ⟨path, _, hpath, hentry, fun offset size hlt => ?_⟩
    rw [← hfile]
    exact h.read_eq hreach hn htype hlt
  · intro op hop
    obtain ⟨t', ht', _⟩ := h.step hzero hreach ha hop
    exact ⟨t', ht'⟩

/-- A file in a directory, opened twice: a write through the second descriptor ends behind
the first page, after another driver took a frame. -/
theorem file_store_refines_twice : ∃ t,
    Run Step (boot ⟨fun i => if i = 0 then 0x80 else 0, 2, Pmm.fits_two⟩ (fun _ => 0) 0)
      [.mkdir none [] [100], .create none [[100]] [97] CREATE, .openFile none [[100]] [97] 0,
        .write 0 ⟨10, 2, fun _ => 7⟩, .alloc 1, .poke 0 5 9,
        .write 1 ⟨4090, 10, fun _ => 8⟩, .free 0] t ∧
      t.handles.length = 2 ∧ t.fs.WellFormed := by
  have hsome : (List.foldlM attempt
      (boot ⟨fun i => if i = 0 then 0x80 else 0, 2, Pmm.fits_two⟩ (fun _ => 0) 0)
      [.mkdir none [] [100], .create none [[100]] [97] CREATE, .openFile none [[100]] [97] 0,
        .write 0 ⟨10, 2, fun _ => 7⟩, .alloc 1, .poke 0 5 9,
        .write 1 ⟨4090, 10, fun _ => 8⟩, .free 0]).isSome = true := by
    decide +kernel
  obtain ⟨t, ht⟩ := Option.isSome_iff_exists.mp hsome
  have hrun := Run.of_foldlM step_of_attempt ht
  have hall := file_store_refines (by decide) (by decide) hrun
  exact ⟨t, hrun, hall.2.1, hall.2.2.2.2.1⟩

end FileStore

end Toystar.Fs
