import OmegaOS.Theorems.PathNormalisation

/-!
# The buffers of the working directory

Which bytes `sys_chdir` writes in the process and `sys_getcwd` in the caller's buffer.
-/

namespace OmegaOS

open ByteMem CStr List Function

variable {w : FileWorld} {m m' : Mem} {current dst buf n x : Nat} {s path : Str}

/-! ## `strncpy` -/

@[simp] theorem strncpy_nil (m : Mem) (dst n : Nat) : strncpy m dst [] n = update m dst 0 := by
  cases n <;> rfl

@[simp] theorem strncpy_zero (m : Mem) (dst : Nat) (s : Str) : strncpy m dst s 0 = update m dst 0 := by
  cases s <;> rfl

/-- The bytes that are not written: those before, and those behind the terminator. -/
theorem strncpy_outside (h : x < dst ∨ dst + min s.length n < x) : strncpy m dst s n x = m x := by
  induction s generalizing m dst n with
  | nil =>
    rw [strncpy_nil]
    exact update_of_ne (by rw [length_nil] at h; omega) _ _
  | cons c s ih =>
    rw [length_cons] at h
    cases n with
    | zero =>
      rw [strncpy_zero]
      exact update_of_ne (by omega) _ _
    | succ n =>
      rw [strncpy, ih (by omega)]
      exact update_of_ne (by omega) _ _

/-- What is there then: as many bytes of the string as may be copied, and a terminator. -/
theorem strncpy_holds (m : Mem) (dst : Nat) (s : Str) (n : Nat) : HoldsStr (strncpy m dst s n) dst (s.take n) := by
  induction s generalizing m dst n with
  | nil =>
    rw [strncpy_nil, take_nil]
    exact update_self _ _ _
  | cons c s ih =>
    cases n with
    | zero =>
      rw [strncpy_zero]
      exact update_self _ _ _
    | succ n =>
      rw [strncpy, take_succ_cons]
      refine ⟨?_, ih _ (dst + 1) n⟩
      rw [strncpy_outside (by omega)]
      exact update_self _ _ _

/-- A string is copied as it is when the copy does not overwrite it. -/
theorem strncpyFrom_eq {src : Nat} (h : HoldsStr m src s) (hs : NoNul s) (hapart : dst + min s.length n < src ∨ src + s.length < dst) :
    strncpyFrom m dst src n = strncpy m dst s n := by
  induction s generalizing m dst src n with
  | nil =>
    cases n with
    | zero => rfl
    | succ n =>
      have hend : m src = 0 := h
      rw [strncpyFrom, if_pos hend, strncpy_nil]
  | cons c s ih =>
    obtain ⟨hc, hrest⟩ := h
    rw [length_cons] at hapart
    cases n with
    | zero => rw [strncpyFrom, strncpy_zero]
    | succ n =>
      rw [strncpyFrom, hc, if_neg (hs c mem_cons_self), strncpy]
      exact ih (hrest.congr fun x hlo hhi => update_of_ne (by omega) _ _) (fun c' hc' => hs c' (.tail _ hc')) (by omega)

/-- The terminator of a string of `n` bytes. -/
theorem strncpy_end (hlen : s.length = n) : strncpy m dst s n (dst + n) = 0 := by
  have hend := (strncpy_holds m dst s n).end_eq_zero
  rwa [take_of_length_le (le_of_eq hlen), hlen] at hend

/-! ## `sys_chdir` -/

/-- The call has written inside the field `cwd` of the process only, and left a terminator there. -/
def KeepsCwdField (m m' : Mem) (current : Nat) : Prop :=
  (∀ x, x < current + processCwd ∨ current + processCwd + fsMaxPath ≤ x → m' x = m x) ∧
    ∃ i < fsMaxPath, m' (current + processCwd + i) = 0

/-- `sys_chdir`, when it succeeds: the field is cleared and the normalised path copied. -/
theorem sysChdirAt_ok (h : sysChdirAt w m current (some path) = .ok (enoer, m')) :
    m' = strncpy (memset m (current + processCwd) 0 fsMaxPath) (current + processCwd) (normalizePath w.cwd path) fsMaxPath :=
  ((opened_directory h).1 rfl).1

/-- The field then holds the working directory that `sys_chdir` sets. -/
theorem sysChdirAt_refines (h : sysChdirAt w m current (some path) = .ok (enoer, m')) :
    ∃ cwd', sysChdir w (some path) = .ok (enoer, cwd') ∧ HoldsStr m' (current + processCwd) cwd' := by
  obtain ⟨hm, node, hopen, hdir⟩ := (opened_directory h).1 rfl
  refine ⟨(normalizePath w.cwd path).take fsMaxPath, ?_, by rw [hm]; exact strncpy_holds _ _ _ _⟩
  rw [sysChdir, hopen]
  exact if_neg hdir

/-- The field is kept exactly when the path is shorter than it. -/
theorem keepsCwdField_iff (hs : NoNul s) :
    KeepsCwdField m (strncpy (memset m (current + processCwd) 0 fsMaxPath) (current + processCwd) s fsMaxPath) current ↔
      s.length < fsMaxPath := by
  have hholds := strncpy_holds (memset m (current + processCwd) 0 fsMaxPath) (current + processCwd) s fsMaxPath
  constructor
  · rintro ⟨-, i, hi, hzero⟩
    by_contra hlong
    refine hholds.byte_ne_zero (fun c hc => hs c (mem_of_mem_take hc)) ?_ hzero
    rw [length_take]
    omega
  · intro hshort
    refine ⟨fun x hx => ?_, s.length, hshort, ?_⟩
    · rw [strncpy_outside (by omega), memset, if_neg (by omega)]
    · rw [take_of_length_le (le_of_lt hshort)] at hholds
      exact hholds.end_eq_zero

/-! ## `sys_getcwd` -/

/-- Whatever else is in the memory of a process with this working directory, the call writes inside the first `n` bytes of the buffer only. -/
def KeepsBuffer (cwd : Str) (current buf n : Nat) : Prop :=
  ∀ m : Mem, HoldsStr m (current + processCwd) cwd → ∀ x, x < buf ∨ buf + n ≤ x → (sysGetcwd m current buf n).2 x = m x

/-- The working directory, and the buffer with the byte behind it, do not overlap. -/
def CwdApart (cwd : Str) (current buf n : Nat) : Prop := buf + n < current + processCwd ∨ current + processCwd + cwd.length < buf

section

variable (hs : NoNul s) (hbuf : buf ≠ null) (hn : 0 < n) (hapart : CwdApart s current buf n)

include hs hbuf hn hapart

theorem sysGetcwd_eq (h : HoldsStr m (current + processCwd) s) : (sysGetcwd m current buf n).2 = strncpy m buf s n := by
  rw [sysGetcwd, if_neg (by omega)]
  refine strncpyFrom_eq h hs ?_
  rw [CwdApart] at hapart
  omega

theorem keepsBuffer_iff : KeepsBuffer s current buf n ↔ s.length < n := by
  constructor
  · intro hkeeps
    by_contra hlong
    have hholds := strncpy_holds (fun _ => 1) (current + processCwd) s s.length
    rw [take_length] at hholds
    have hbehind : strncpy (fun _ => 1) (current + processCwd) s s.length (buf + n) = 1 := strncpy_outside (by rw [CwdApart] at hapart; omega)
    have hsame := hkeeps _ hholds (buf + n) (.inr (le_refl _))
    have hend := (strncpy_holds (strncpy (fun _ => 1) (current + processCwd) s s.length) buf s n).end_eq_zero
    rw [length_take, Nat.min_eq_left (not_lt.mp hlong), ← sysGetcwd_eq hs hbuf hn hapart hholds, hsame, hbehind] at hend
    exact absurd hend (by decide)
  · intro hshort m h x hx
    rw [sysGetcwd_eq hs hbuf hn hapart h]
    exact strncpy_outside (by omega)

end

/-- `sys_chdir` keeps to the field when the path is shorter than `FS_MAX_PATH` bytes, and `sys_getcwd` to the buffer when the path is
shorter than that; a path of just that length is one byte too long. -/
theorem cwdBuffers_iff (w : FileWorld) :
    (∀ (m m' : Mem) (current : Nat) (path : Str), NoNul w.cwd → NoNul path → sysChdirAt w m current (some path) = .ok (enoer, m') →
      (KeepsCwdField m m' current ↔ (normalizePath w.cwd path).length < fsMaxPath)) ∧
      ∀ current buf n : Nat, NoNul w.cwd → buf ≠ null → 0 < n → CwdApart w.cwd current buf n →
        (KeepsBuffer w.cwd current buf n ↔ w.cwd.length < n) := by
  refine ⟨?_, fun current buf n hcwd hbuf hn hapart => keepsBuffer_iff hcwd hbuf hn hapart⟩
  intro m m' current path hcwd hpath h
  rw [sysChdirAt_ok h]
  exact keepsCwdField_iff (normalizePath_noNul hcwd hpath)

/-- The root directory, as a working directory and in a buffer of two bytes. -/
theorem cwdBuffers_root :
    (∃ m', sysChdirAt deepWorld (fun _ => 1) 0x1000 (some [pathSeperator]) = .ok (enoer, m') ∧ KeepsCwdField (fun _ => 1) m' 0x1000) ∧
      KeepsBuffer deepWorld.cwd 0x1000 0x8000 2 := by
  obtain ⟨hfield, hbuffer⟩ := cwdBuffers_iff deepWorld
  refine ⟨exists_ok_fst (by decide) fun m' hchdir => ?_,
    (hbuffer 0x1000 0x8000 2 (by decide) (by decide) (by decide) (.inr (by decide))).mpr (by decide)⟩
  exact (hfield _ _ _ _ (by decide) (by decide) hchdir).mpr (by decide)

/-- A directory whose path has 256 bytes: the byte behind the field is overwritten. And a buffer that is as long as the path. -/
theorem cwdBuffers_overrun : (∃ m', sysChdirAt deepWorld (fun _ => 1) 0x1000 (some (pathSeperator :: longName)) = .ok (enoer, m') ∧
      m' (0x1000 + processCwd + fsMaxPath) = 0 ∧ ¬ KeepsCwdField (fun _ => 1) m' 0x1000) ∧
      deepWorld.cwd.length = 1 ∧ ¬ KeepsBuffer deepWorld.cwd 0x1000 0x8000 1 := by
  have hlen : (normalizePath deepWorld.cwd (pathSeperator :: longName)).length = fsMaxPath := by decide +kernel
  have hno : NoNul (pathSeperator :: longName) := by
    rw [NoNul, List.forall_mem_cons]
    refine ⟨by decide, fun c hc => ?_⟩
    rw [List.eq_of_mem_replicate hc]
    decide
  refine ⟨exists_ok_fst (by decide +kernel) fun m' hchdir => ?_, rfl, fun hkeeps => ?_⟩
  · rw [sysChdirAt_ok hchdir]
    refine ⟨strncpy_end hlen, ?_⟩
    rw [keepsCwdField_iff (normalizePath_noNul (by decide) hno), hlen]
    exact lt_irrefl _
  · exact absurd ((keepsBuffer_iff (by decide) (by decide) (by decide) (.inr (by decide))).mp hkeeps) (by decide)

/-! ## The round trip -/

/-- A `sys_chdir` that fails changes nothing but memory of the allocator, which is left out here. After one that succeeds with a path shorter
than the field, `sys_getcwd` gives the normalised path in every buffer apart from it that has room, whatever was written outside the field
in between. -/
theorem chdir_getcwd {ret : Int} (hcwd : NoNul w.cwd) (hpath : NoNul path)
    (h : sysChdirAt w m current (some path) = .ok (ret, m')) (hfield : (normalizePath w.cwd path).length < fsMaxPath)
    (hkept : ∀ x, current + processCwd ≤ x → x < current + processCwd + fsMaxPath → m2 x = m' x)
    (hbuf : buf ≠ null) (hn : (normalizePath w.cwd path).length < n) (hapart : CwdApart (normalizePath w.cwd path) current buf n) :
    (ret ≠ enoer → m' = m) ∧ (ret = enoer → HoldsStr (sysGetcwd m2 current buf n).2 buf (normalizePath w.cwd path)) := by
  refine ⟨(opened_directory h).2, ?_⟩
  rintro rfl
  have hstr := strncpy_holds (memset m (current + processCwd) 0 fsMaxPath) (current + processCwd) (normalizePath w.cwd path) fsMaxPath
  rw [← sysChdirAt_ok h, take_of_length_le (le_of_lt hfield)] at hstr
  have hread := hstr.congr fun x hlo hhi => hkept x hlo (by omega)
  rw [sysGetcwd_eq (normalizePath_noNul hcwd hpath) hbuf (by omega) hapart hread]
  have hcopy := strncpy_holds m2 buf (normalizePath w.cwd path) n
  rwa [take_of_length_le (le_of_lt hn)] at hcopy

/-- To the root directory and back. -/
theorem chdir_getcwd_root : ∃ m', sysChdirAt deepWorld (fun _ => 1) 0x1000 (some [pathSeperator]) = .ok (enoer, m') ∧
    HoldsStr (sysGetcwd m' 0x1000 0x8000 2).2 0x8000 [pathSeperator] :=
  exists_ok_fst (by decide) fun _ h =>
    (chdir_getcwd (by decide) (by decide) h (by decide) (fun _ _ _ => rfl) (by decide) (by decide) (.inr (by decide))).2 rfl

end OmegaOS
