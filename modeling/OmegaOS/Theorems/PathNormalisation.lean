import OmegaOS.Lemmas.PathBuffer
import OmegaOS.SysFile
import OmegaOS.Theorems.DirectoryCreate

/-!
# Normalised paths

What `normalizePath` computes, as a walk over lists of components, and how it behaves when paths are put together: in the working
directory that `sys_chdir` sets, and in the parent that `getParent` asks for.
-/

namespace OmegaOS

open ByteMem CStr List

variable {cwd path p q s cwd' : Str} {cs : List Str}

/-! ## The reference -/

/-- The path of a list of components. -/
def renderPath (cs : List Str) : Str := if cs = [] then [pathSeperator] else joinPath cs

/-- A normalised path: the root's, or that of components which stand for themselves. -/
def Normalised (s : Str) : Prop := ∃ cs, (∀ c ∈ cs, IsComponent c ∧ IsNormal c) ∧ s = renderPath cs

/-- A component of a path on the way: `.` is dropped, `..` takes the last component off if there is one, and others are appended. -/
def walkComponent (cs : List Str) (c : Str) : List Str :=
  if c = Ext2.pathCurrDir then cs else if c = Ext2.pathUpDir then cs.dropLast else cs ++ [c]

/-- The components that a path leads to, from those of the working directory when it is relative. -/
def referenceComponents (cwd path : Str) : List Str :=
  (components path).foldl walkComponent (if path ≠ [] ∧ path.head? ≠ some pathSeperator then components cwd else [])

/-- The normalised path. -/
def referencePath (cwd path : Str) : Str := renderPath (referenceComponents cwd path)

theorem walkComponent_eq : walkComponent = pushToken := by
  funext cs c
  unfold walkComponent pushToken
  by_cases hup : c = Ext2.pathUpDir
  · rw [if_pos hup, if_pos hup, if_neg (by rw [hup]; decide)]
  · rw [if_neg hup, if_neg hup]

theorem referencePath_eq (cwd path : Str) : referencePath cwd path = normalizePath cwd path := by
  rw [referencePath, referenceComponents, walkComponent_eq, normalizePath_eq]
  rfl

theorem components_renderPath (h : ∀ c ∈ cs, IsComponent c) : components (renderPath cs) = cs := by
  unfold renderPath
  split
  · rename_i hnil
    rw [hnil]
    rfl
  · exact components_joinPath h

/-- The path of components starts with a separator. -/
theorem head_renderPath (cs : List Str) : (renderPath cs).head? = some pathSeperator := by
  unfold renderPath
  split
  · rfl
  · rename_i hne
    obtain ⟨c, cs, rfl⟩ := exists_cons_of_ne_nil hne
    rfl

theorem Normalised.components (h : Normalised s) : ∀ c ∈ components s, IsComponent c ∧ IsNormal c := by
  obtain ⟨cs, hcs, rfl⟩ := h
  rwa [components_renderPath fun c hc => (hcs c hc).1]

theorem normalised_normalizePath (hcwd : Normalised cwd) (path : Str) : Normalised (normalizePath cwd path) := by
  refine ⟨normalComponents cwd path, fun c hc => ⟨(normalComponents_mem hc).1, ?_⟩, normalizePath_eq cwd path⟩
  exact normalComponents_isNormal (fun c hc => (hcwd.components c hc).2) path c hc

/-- A normalised path is what it is normalised to, whatever the working directory. -/
theorem Normalised.normalizePath (h : Normalised s) (cwd : Str) : normalizePath cwd s = s := by
  have hcs := h.components
  obtain ⟨cs, hnormal, rfl⟩ := h
  have hkeep : normalComponents cwd (renderPath cs) = cs := by
    rw [normalComponents, if_neg fun hboth => hboth.2 (head_renderPath cs), foldl_pushToken_normal [] fun c hc => (hcs c hc).2,
      nil_append, components_renderPath fun c hc => (hnormal c hc).1]
  rw [normalizePath_eq, hkeep]
  rfl

/-- In every memory, with all the buffers it asks for, `normalizePath` leaves the string at the pointer that it returns. -/
def NormalisesTo (cwd path s : Str) : Prop := ∀ (b : PathBuffers) (m : Mem) (p : Nat), b.cwdCopy ≠ null → b.rlpCopy ≠ null →
  HoldsStr (normalizePathAt b m p cwd path).2.2 (normalizePathAt b m p cwd path).1 s

/-- `normalizePath` gives the reference's path, which is normalised, and normalising it again changes nothing. -/
theorem normalizePath_reference (hcwd : Normalised cwd) (hno : NoNul cwd) (hpath : NoNul path) :
    NormalisesTo cwd path (referencePath cwd path) ∧ Normalised (referencePath cwd path) ∧
      ∀ cwd', NoNul cwd' → NormalisesTo cwd' (referencePath cwd path) (referencePath cwd path) := by
  rw [referencePath_eq]
  have hnormal := normalised_normalizePath hcwd path
  refine ⟨fun b m p hc hr => normalizePathAt_holds b hc hr m p hno hpath, hnormal, fun cwd' hno' b m p hc hr => ?_⟩
  have hagain := normalizePathAt_holds b hc hr m p hno' (normalizePath_noNul hno hpath)
  rwa [hnormal.normalizePath cwd'] at hagain

/-- `../b//./c/` in `/a`. -/
theorem normalizePath_reference_example :
    NormalisesTo [0x2F, 0x61] [0x2E, 0x2E, 0x2F, 0x62, 0x2F, 0x2F, 0x2E, 0x2F, 0x63, 0x2F] [0x2F, 0x62, 0x2F, 0x63] := by
  have hcwd : Normalised [0x2F, 0x61] := ⟨[[0x61]], by simp [IsComponent, IsNormal, pathSeperator, Ext2.pathUpDir, Ext2.pathCurrDir], rfl⟩
  have hpath : NoNul [0x2E, 0x2E, 0x2F, 0x62, 0x2F, 0x2F, 0x2E, 0x2F, 0x63, 0x2F] := by decide
  have h := (normalizePath_reference hcwd (by decide) hpath).1
  rwa [show referencePath _ _ = [0x2F, 0x62, 0x2F, 0x63] by decide] at h

/-! ## Paths put together -/

/-- A path that is taken from the working directory: not empty, and without a separator in front. -/
def Relative (q : Str) : Prop := q ≠ [] ∧ q.head? ≠ some pathSeperator

theorem normalComponents_relative (cwd : Str) (hq : Relative q) : normalComponents cwd q = (components q).foldl pushToken (components cwd) := by
  unfold Relative at hq
  rw [normalComponents, if_pos hq]

/-- A relative path behind another: the components of the one are walked after those of the other. -/
theorem normalComponents_append (cwd p q : Str) :
    normalComponents cwd (p ++ pathSeperator :: q) = (components q).foldl pushToken (normalComponents cwd p) := by
  rw [normalComponents, normalComponents, components_append, foldl_append]
  cases p with
  | nil => rfl
  | cons c p =>
    rw [cons_append]
    simp

theorem normalizePath_append (cwd p : Str) (hq : Relative q) :
    normalizePath (normalizePath cwd p) q = normalizePath cwd (p ++ pathSeperator :: q) := by
  rw [normalizePath_eq cwd (p ++ _), normalComponents_append, normalizePath_eq _ q, normalComponents_relative _ hq,
    components_normalizePath]

/-- The parent of a path. -/
def parentPath (s : Str) : Str := renderPath (components s).dropLast

/-- The path that `getParent` opens is that of the parent. -/
theorem normalizePath_parent (hcwd : Normalised cwd) (path : Str) :
    normalizePath cwd (normalizePath cwd path ++ pathSeperator :: Ext2.pathUpDir) = parentPath (normalizePath cwd path) := by
  have hup : components Ext2.pathUpDir = [Ext2.pathUpDir] := by decide
  have hagain : normalComponents cwd (normalizePath cwd path) = normalComponents cwd path := by
    rw [← components_normalizePath, (normalised_normalizePath hcwd path).normalizePath, components_normalizePath]
  rw [normalizePath_eq, normalComponents_append, hup, hagain, parentPath, components_normalizePath]
  rfl

/-! ## The working directory that is set -/

/-- A path that is opened and has to be that of a directory: when `ENOER` is returned it was, and else nothing is set. -/
theorem opened_directory {α : Type} {opened : Except Halt (Option FsNode)} {old new result : α} {ret : Int}
    (h : (opened >>= fun found => match found with
      | none => .ok (enoent, old)
      | some node => if node.flags &&& fsDir = 0 then .ok (enotdir, old) else .ok (enoer, new)) = .ok (ret, result)) :
    (ret = enoer → result = new ∧ ∃ node, opened = .ok (some node) ∧ node.flags &&& fsDir ≠ 0) ∧ (ret ≠ enoer → result = old) := by
  obtain ⟨found, hopened, h⟩ := bind_eq_ok.mp h
  cases found with
  | none =>
    cases h
    exact ⟨fun he => absurd he (by decide), fun _ => rfl⟩
  | some node =>
    dsimp only at h
    split at h <;> cases h
    · exact ⟨fun he => absurd he (by decide), fun _ => rfl⟩
    · exact ⟨fun _ => ⟨rfl, node, hopened, ‹_›⟩, fun he => absurd rfl he⟩

/-- `sys_chdir`, when it succeeds, keeps the first bytes of the normalised path. -/
theorem sysChdir_ok (h : sysChdir w (some p) = .ok (enoer, cwd')) :
    cwd' = (normalizePath w.cwd p).take fsMaxPath := ((opened_directory h).1 rfl).1

/-- The bytes of the components are the bytes other than separators. -/
theorem flatten_components (s : Str) : (components s).flatten = s.filter (· ≠ pathSeperator) := by
  rw [components, flatten_filter_ne_nil, splitOn]
  induction s with
  | nil => rfl
  | cons c s ih =>
    rw [splitOnP_cons_eq_if_modifyHead, filter_cons]
    by_cases hc : c = pathSeperator
    · simp [hc, ih]
    · obtain ⟨w, ws, hw⟩ := exists_cons_of_ne_nil (splitOnP_ne_nil (· == pathSeperator) s)
      rw [hw] at ih ⊢
      simpa [hc] using ih

/-- A path of components other than the root's ends with a byte of the last one. -/
theorem getLast_joinPath (h : ∀ c ∈ cs, IsComponent c) (hne : cs ≠ []) : ∃ b, (joinPath cs).getLast? = some b ∧ b ≠ pathSeperator := by
  rw [← dropLast_concat_getLast hne, joinPath_concat]
  obtain ⟨hbytes, hsep⟩ := h _ (getLast_mem hne)
  refine ⟨(cs.getLast hne).getLast hbytes, ?_, fun he => hsep (he ▸ getLast_mem hbytes)⟩
  rw [getLast?_append, getLast?_cons, getLast?_eq_some_getLast hbytes]
  rfl

/-- A normalised path that is cut has other components. -/
theorem components_take (h : Normalised s) (hn : 1 ≤ n) (hlen : n < s.length) : components (s.take n) ≠ components s := by
  intro heq
  have hbytes := congrArg flatten heq
  rw [flatten_components, flatten_components] at hbytes
  nth_rewrite 2 [← take_append_drop n s] at hbytes
  rw [filter_append] at hbytes
  have hnone := filter_eq_nil_iff.mp (self_eq_append_right.mp hbytes)
  obtain ⟨cs, hcs, rfl⟩ := h
  have hne : cs ≠ [] := by
    rintro rfl
    exact absurd hlen (not_lt.mpr hn)
  obtain ⟨b, hb, hsep⟩ := getLast_joinPath (fun c hc => (hcs c hc).1) hne
  have hlast : ((renderPath cs).drop n).getLast? = some b := by
    rw [getLast?_drop, if_neg (not_le.mpr hlen), renderPath, if_neg hne, hb]
  exact hnone b (mem_of_getLast? hlast) (by simpa using hsep)

/-- Relative paths lead to the same place from two directories only if these have the same components. -/
theorem components_of_normalizePath_eq {cwd : Str} (h : ∀ q, Relative q → normalizePath cwd' q = normalizePath cwd q) :
    components cwd' = components cwd := by
  have hq : Relative [0x61] := ⟨by decide, by decide⟩
  have hone : components [0x61] = [[0x61]] := by decide
  have hnormal : IsNormal [0x61] := ⟨by decide, by decide⟩
  have heq := congrArg components (h [0x61] hq)
  rw [components_normalizePath, components_normalizePath, normalComponents_relative _ hq, normalComponents_relative _ hq, hone,
    foldl_cons, foldl_cons, foldl_nil, foldl_nil, pushToken_normal _ hnormal, pushToken_normal _ hnormal] at heq
  exact append_cancel_right heq

/-- A path behind another is resolved from where the other leads, and the path with `..` behind it leads to its parent. From the working
directory that `sys_chdir` sets the rest of the path leads to the same place exactly when that directory's path fits the field. -/
theorem normalizePath_composes (hcwd : Normalised cwd) (p : Str) :
    (∀ q, Relative q → normalizePath (normalizePath cwd p) q = normalizePath cwd (p ++ pathSeperator :: q)) ∧
      normalizePath cwd (normalizePath cwd p ++ pathSeperator :: Ext2.pathUpDir) = parentPath (normalizePath cwd p) ∧
      ∀ (w : FileWorld) (cwd' : Str), w.cwd = cwd → sysChdir w (some p) = .ok (enoer, cwd') →
        ((∀ q, Relative q → normalizePath cwd' q = normalizePath cwd (p ++ pathSeperator :: q)) ↔
          (normalizePath cwd p).length ≤ fsMaxPath) := by
  have happend := fun q (hq : Relative q) => normalizePath_append cwd p hq
  refine ⟨happend, normalizePath_parent hcwd p, fun w cwd' hw hchdir => ?_⟩
  subst hw
  rw [sysChdir_ok hchdir]
  constructor
  · intro hsame
    by_contra hlong
    exact components_take (normalised_normalizePath hcwd p) (by decide) (not_le.mp hlong)
      (components_of_normalizePath_eq fun q hq => (hsame q hq).trans (happend q hq).symm)
  · intro hfits q hq
    rw [List.take_of_length_le hfits]
    exact happend q hq

/-- A name of 255 bytes. -/
def longName : Str := List.replicate 255 0x61

/-- The inode table: the root directory, the directory of that name in it, and a directory `b` in that one. -/
def deepTable : Mem :=
  copy (copy (copy (fun _ => 0) 128 (smallInode iDir 1024 6) 0 128) 256 (smallInode iDir 1024 7) 0 128) 384 (smallInode iDir 1024 8) 0 128

/-- A filesystem with these directories. -/
def deepFs : Ext2 :=
  { smallFs with
    disk := fun
      | 5 => deepTable
      | 6 => writeRecord (fun _ => 0) 0 3 longName 1024 2
      | 7 => writeRecord (fun _ => 0) 0 4 [0x62] 1024 2
      | 8 => writeRecord (fun _ => 0) 0 0 [] 1024 0
      | n => smallFs.disk n }

/-- A process in its root directory. -/
def deepWorld : FileWorld :=
  { fs := deepFs, rootFS := emptyNode.fill 2 (deepFs.storedInode 2), cwd := [pathSeperator], kbd := 0, heap := fun _ _ => emptyNode,
    listOk := true, dirOk := true, freed := emptyNode }

/-- From the root directory, into it and on. -/
theorem normalizePath_composes_root : sysChdir deepWorld (some [pathSeperator]) = .ok (enoer, [pathSeperator]) ∧
      ∀ q, Relative q → normalizePath [pathSeperator] q = normalizePath [pathSeperator] ([pathSeperator] ++ pathSeperator :: q) := by
  have hchdir : sysChdir deepWorld (some [pathSeperator]) = .ok (enoer, [pathSeperator]) := rfl
  exact ⟨hchdir, ((normalizePath_composes ⟨[], by simp, rfl⟩ [pathSeperator]).2.2 deepWorld _ rfl hchdir).mpr (by decide)⟩

/-- The path of `b`, which has 258 bytes. -/
def deepPath : Str := pathSeperator :: longName ++ [pathSeperator, 0x62]

/-- The working directory is then the path without `/b`, and a name leads elsewhere. -/
theorem chdir_loses_components : ∃ cwd', sysChdir deepWorld (some deepPath) = .ok (enoer, cwd') ∧ Relative [0x63] ∧
    normalizePath cwd' [0x63] ≠ normalizePath deepWorld.cwd (deepPath ++ pathSeperator :: [0x63]) := by
  refine exists_ok_fst (by decide +kernel) fun cwd' hchdir => ⟨⟨by decide, by decide⟩, ?_⟩
  rw [sysChdir_ok hchdir]
  decide +kernel

end OmegaOS
