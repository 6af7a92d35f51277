import Mathlib.Data.List.Infix
import Mathlib.Data.List.TakeWhile
import OmegaOS.Vfs

/-!
# Paths

A path is a list of components. `strtok` reads the components off a string, `normalizePath` writes them, and `vfs_openFile` finds them
one by one in the buffer whose separators it has overwritten.
-/

namespace OmegaOS

open CStr List

variable {c cwd path buf : Str} {lst : List Str} {offset : Nat} {fs : Ext2}

variable {s t : Str} {cs : List Str}

/-! ## Components -/

/-- The components of a path: what lies between its separators, where it is not empty. -/
def components (s : Str) : List Str := (s.splitOn pathSeperator).filter (· ≠ [])

/-- The absolute path of a list of components. -/
def joinPath (cs : List Str) : Str := cs.flatMap fun c => pathSeperator :: c

/-- A component: a string that is not empty and has no separator. -/
def IsComponent (c : Str) : Prop := c ≠ [] ∧ pathSeperator ∉ c

theorem components_append (s t : Str) : components (s ++ pathSeperator :: t) = components s ++ components t := by
  rw [components, splitOn, splitOnP_append_cons _ _ (by simp), filter_append]
  rfl

@[simp] theorem components_nil : components [] = [] := rfl

theorem components_seperator (s : Str) : components (pathSeperator :: s) = components s := components_append [] s

theorem IsComponent.components (h : IsComponent c) : components c = [c] := by
  have hsplit : c.splitOn pathSeperator = [c] := by
    refine splitOnP_eq_singleton fun x hx => ?_
    have hne : x ≠ pathSeperator := fun he => h.2 (he ▸ hx)
    simpa using hne
  rw [OmegaOS.components, hsplit, filter_singleton, decide_eq_true h.1]
  rfl

theorem components_joinPath (h : ∀ c ∈ cs, IsComponent c) : components (joinPath cs) = cs := by
  induction cs with
  | nil => rfl
  | cons c cs ih =>
    have hrest := ih fun x hx => h x (.tail c hx)
    have hc := h c mem_cons_self
    have hjoin : joinPath (c :: cs) = pathSeperator :: (c ++ joinPath cs) := rfl
    rw [hjoin, components_seperator]
    cases cs with
    | nil =>
      rw [show joinPath [] = [] from rfl, append_nil]
      exact hc.components
    | cons d ds =>
      have hnext : joinPath (d :: ds) = pathSeperator :: (d ++ joinPath ds) := rfl
      rw [hnext, components_seperator] at hrest
      rw [hnext, components_append, hc.components, hrest]
      rfl

/-! ## Tokens -/

theorem components_dropWhile (s : Str) : components (s.dropWhile (· == pathSeperator)) = components s := by
  induction s with
  | nil => rfl
  | cons c s ih =>
    rw [dropWhile_cons]
    split
    · rename_i hc
      rw [ih, beq_iff_eq.mp hc, components_seperator]
    · rfl

/-- `strtok` splits off the next component. -/
theorem strtok_spec (s : Str) : (strtok s = none ∧ components s = []) ∨
      ∃ token rest, strtok s = some (token, rest) ∧ IsComponent token ∧ components s = token :: components rest ∧
        rest.length < s.length ∧ token ⊆ s ∧ rest ⊆ s := by
  have hdrop := components_dropWhile s
  have hlen : (s.dropWhile (· == pathSeperator)).length ≤ s.length := (dropWhile_suffix _).length_le
  have hsub : s.dropWhile (· == pathSeperator) ⊆ s := (dropWhile_suffix _).subset
  rw [strtok]
  generalize hs' : s.dropWhile (· == pathSeperator) = s' at hdrop hlen hsub ⊢
  cases s' with
  | nil => exact .inl ⟨if_pos rfl, hdrop ▸ rfl⟩
  | cons c s' =>
    right
    have hc : (c != pathSeperator) = true := by
      have hhead := head?_dropWhile_not (· == pathSeperator) s
      rw [hs'] at hhead
      simpa using hhead
    rw [if_neg (by simp)]
    have hsplit := takeWhile_append_dropWhile (p := (· != pathSeperator)) (l := c :: s')
    have htoken : IsComponent ((c :: s').takeWhile (· != pathSeperator)) := by
      refine ⟨?_, fun h => by simpa using mem_takeWhile_imp h⟩
      rw [takeWhile_cons, if_pos hc]
      simp
    refine ⟨_, _, rfl, htoken, ?_, ?_, List.Subset.trans (takeWhile_subset _) hsub,
      List.Subset.trans (List.Subset.trans (drop_subset _ _) (dropWhile_suffix _).subset) hsub⟩
    · rw [← hdrop]
      cases hrest : (c :: s').dropWhile (· != pathSeperator) with
      | nil =>
        rw [hrest, append_nil] at hsplit
        have hone := htoken.components
        rw [hsplit] at hone ⊢
        exact hone
      | cons d rest =>
        have hd : d = pathSeperator := by
          have hhead := head?_dropWhile_not (· != pathSeperator) (c :: s')
          rw [hrest] at hhead
          simpa using hhead
        rw [hrest, hd] at hsplit
        nth_rewrite 1 [← hsplit]
        rw [components_append, htoken.components]
        rfl
    · have hpos := length_pos_iff.mpr htoken.1
      have hsum := congrArg length hsplit
      rw [length_append] at hsum
      rw [length_drop]
      omega

/-- The loop over the tokens visits the components. -/
theorem tokens_eq (s : Str) : tokens s = components s := by
  have hloop : ∀ fuel s, s.length ≤ fuel → strtokLoop fuel s = components s := by
    intro fuel
    induction fuel with
    | zero =>
      intro s hs
      rw [length_eq_zero_iff.mp (Nat.le_zero.mp hs)]
      rfl
    | succ fuel ih =>
      intro s hs
      rcases strtok_spec s with ⟨hnone, hnil⟩ | ⟨token, rest, hsome, -, hcons, hlt, -⟩
      · rw [strtokLoop, hnone, hnil]
      · rw [strtokLoop, hsome, hcons]
        dsimp only
        rw [ih rest (by omega)]
  exact hloop s.length s (le_refl _)

/-- A component of a path is one, and its bytes are bytes of the path. -/
theorem isComponent_of_mem (hc : c ∈ components s) : IsComponent c ∧ c ⊆ s := by
  have hloop : ∀ n, ∀ s : Str, s.length ≤ n → ∀ c ∈ components s, IsComponent c ∧ c ⊆ s := by
    intro n
    induction n with
    | zero =>
      intro s hs c hc
      simp [length_eq_zero_iff.mp (Nat.le_zero.mp hs)] at hc
    | succ n ih =>
      intro s hs c hc
      rcases strtok_spec s with ⟨-, hnil⟩ | ⟨token, rest, -, htoken, hcons, hlt, hsub, hsub'⟩
      · simp [hnil] at hc
      · rw [hcons] at hc
        rcases mem_cons.mp hc with rfl | hc
        · exact ⟨htoken, hsub⟩
        · obtain ⟨hcomponent, hrest⟩ := ih rest (by omega) c hc
          exact ⟨hcomponent, List.Subset.trans hrest hsub'⟩
  exact hloop s.length s (le_refl _) c hc

/-! ## Normalised paths -/

/-- The components of the normalised path. -/
def normalComponents (cwd path : Str) : List Str :=
  (components path).foldl pushToken (if path ≠ [] ∧ path.head? ≠ some pathSeperator then components cwd else [])

theorem mem_pushToken {token : Str} (hc : c ∈ pushToken lst token) : c ∈ lst ∨ c = token := by
  unfold pushToken at hc
  split at hc
  · exact .inl (mem_of_mem_dropLast hc)
  · split at hc
    · exact .inl hc
    · simpa using hc

theorem mem_foldl_pushToken {tokens : List Str} (hc : c ∈ tokens.foldl pushToken lst) : c ∈ lst ∨ c ∈ tokens := by
  induction tokens generalizing lst with
  | nil => exact .inl hc
  | cons token tokens ih =>
    rcases ih hc with hc | hc
    · rcases mem_pushToken hc with hc | rfl
      · exact .inl hc
      · exact .inr mem_cons_self
    · exact .inr (.tail token hc)

theorem normalComponents_mem (hc : c ∈ normalComponents cwd path) : IsComponent c ∧ (c ⊆ cwd ∨ c ⊆ path) := by
  rcases mem_foldl_pushToken hc with hc | hc
  · split at hc
    · obtain ⟨hcomponent, hsub⟩ := isComponent_of_mem hc
      exact ⟨hcomponent, .inl hsub⟩
    · cases hc
  · obtain ⟨hcomponent, hsub⟩ := isComponent_of_mem hc
    exact ⟨hcomponent, .inr hsub⟩

theorem normalComponents_noNul (hcwd : NoNul cwd) (hpath : NoNul path) (hc : c ∈ normalComponents cwd path) : NoNul c := by
  rcases (normalComponents_mem hc).2 with hsub | hsub
  · exact fun x hx => hcwd x (hsub hx)
  · exact fun x hx => hpath x (hsub hx)

theorem normalizePath_eq (cwd path : Str) :
    normalizePath cwd path = if normalComponents cwd path = [] then [pathSeperator] else joinPath (normalComponents cwd path) := by
  have hsize : ∀ lst : List Str, (lst.map fun item => item.length + 1).sum = 0 ↔ lst = [] := by
    intro lst
    cases lst with
    | nil => simp
    | cons c cs => simp
  unfold normalizePath
  simp only [tokens_eq, hsize]
  rfl

theorem components_normalizePath (cwd path : Str) : components (normalizePath cwd path) = normalComponents cwd path := by
  rw [normalizePath_eq]
  split
  · rename_i hnil
    rw [hnil]
    rfl
  · exact components_joinPath fun c hc => (normalComponents_mem hc).1

theorem normalizePath_noNul (hcwd : NoNul cwd) (hpath : NoNul path) : NoNul (normalizePath cwd path) := by
  rw [normalizePath_eq]
  split
  · decide
  · intro x hx
    obtain ⟨c, hc, hx⟩ := mem_flatMap.mp hx
    rcases mem_cons.mp hx with rfl | hx
    · decide
    · exact normalComponents_noNul hcwd hpath hc x hx

/-! ## The parent of a path -/

/-- A component that stands for itself. -/
def IsNormal (c : Str) : Prop := c ≠ Ext2.pathUpDir ∧ c ≠ Ext2.pathCurrDir

theorem pushToken_normal (lst : List Str) (h : IsNormal c) : pushToken lst c = lst ++ [c] := by
  rw [pushToken, if_neg h.1, if_neg h.2]

theorem foldl_pushToken_normal (lst : List Str) (h : ∀ c ∈ cs, IsNormal c) : cs.foldl pushToken lst = lst ++ cs := by
  induction cs generalizing lst with
  | nil => rw [foldl_nil, append_nil]
  | cons c cs ih =>
    rw [foldl_cons, pushToken_normal lst (h c mem_cons_self), ih _ fun x hx => h x (.tail c hx), append_assoc]
    rfl

theorem foldl_pushToken_isNormal {tokens : List Str} (h : ∀ c ∈ lst, IsNormal c) : ∀ c ∈ tokens.foldl pushToken lst, IsNormal c := by
  induction tokens generalizing lst with
  | nil => exact h
  | cons token tokens ih =>
    refine ih fun c hc => ?_
    unfold pushToken at hc
    split at hc
    · exact h c (mem_of_mem_dropLast hc)
    · rename_i hup
      split at hc
      · exact h c hc
      · rename_i hcurr
        rcases mem_append.mp hc with hc | hc
        · exact h c hc
        · rw [mem_singleton.mp hc]
          exact ⟨hup, hcurr⟩

/-- In a working directory without such components a normalised path has none. -/
theorem normalComponents_isNormal (hcwd : ∀ c ∈ components cwd, IsNormal c) (path : Str) : ∀ c ∈ normalComponents cwd path, IsNormal c := by
  refine foldl_pushToken_isNormal fun c hc => ?_
  split at hc
  · exact hcwd c hc
  · cases hc

/-- The path that `getParent` opens is the one without the last component. -/
theorem normalComponents_parent (hcwd : ∀ c ∈ components cwd, IsNormal c) (h : normalComponents cwd path = cs ++ [c]) :
    normalComponents cwd (normalizePath cwd path ++ pathSeperator :: Ext2.pathUpDir) = cs := by
  have hnormal := normalComponents_isNormal hcwd path
  have hne : normalComponents cwd path ≠ [] := by
    rw [h]
    simp
  have hhead : (normalizePath cwd path ++ pathSeperator :: Ext2.pathUpDir).head? = some pathSeperator := by
    rw [normalizePath_eq, if_neg hne]
    obtain ⟨x, xs, hxs⟩ := exists_cons_of_ne_nil hne
    rw [hxs]
    rfl
  rw [normalComponents, if_neg fun hboth => hboth.2 hhead, components_append, components_normalizePath,
    show components Ext2.pathUpDir = [Ext2.pathUpDir] by decide, foldl_append, foldl_pushToken_normal [] hnormal, nil_append, h]
  exact dropLast_concat

/-- The loop of `getParent` stops at the last separator. -/
theorem lastSeperator_append (ht : pathSeperator ∉ t) : lastSeperator (s ++ pathSeperator :: t) (s.length + t.length) = some s.length := by
  have hat : (s ++ pathSeperator :: t).getD s.length 0 = pathSeperator := by
    rw [getD_eq_getElem?_getD, getElem?_append_right (le_refl _), Nat.sub_self]
    rfl
  have hloop : ∀ k ≤ t.length, lastSeperator (s ++ pathSeperator :: t) (s.length + k) = some s.length := by
    intro k
    induction k with
    | zero =>
      intro _
      rw [add_zero]
      cases hs : s.length <;> rw [lastSeperator, if_pos (hs ▸ hat)]
    | succ k ih =>
      intro hk
      have hbyte : (s ++ pathSeperator :: t).getD (s.length + k + 1) 0 ≠ pathSeperator := by
        rw [getD_eq_getElem?_getD, getElem?_append_right (by omega), show s.length + k + 1 - s.length = k + 1 by omega,
          getElem?_cons_succ, getElem?_eq_getElem hk]
        exact fun he => ht (he ▸ getElem_mem hk)
      rw [← add_assoc, lastSeperator, if_neg hbyte]
      exact ih (by omega)
  exact hloop t.length (le_refl _)

theorem joinPath_concat (cs : List Str) (c : Str) : joinPath (cs ++ [c]) = joinPath cs ++ pathSeperator :: c := by
  rw [joinPath, flatMap_append]
  simp [joinPath]

/-- `getParent` takes as the index of the file's name the length of the parent's path. -/
theorem lastSeperator_normalizePath (h : normalComponents cwd path = cs ++ [c]) :
    lastSeperator (normalizePath cwd path) ((normalizePath cwd path).length - 1) = some (joinPath cs).length := by
  have hc : IsComponent c := (normalComponents_mem (by rw [h]; simp)).1
  rw [normalizePath_eq, h, if_neg (by simp), joinPath_concat, length_append, length_cons, ← add_assoc, Nat.add_sub_cancel]
  exact lastSeperator_append hc.2

/-! ## The buffer of `vfs_openFile` -/

/-- The components in a buffer, each behind a terminator. -/
def joinNul (cs : List Str) : Str := cs.flatMap fun c => 0 :: c

theorem map_joinPath (h : ∀ c ∈ cs, IsComponent c) : (joinPath cs).map (fun c => if c = pathSeperator then 0 else c) = joinNul cs := by
  rw [joinPath, joinNul, map_flatMap]
  refine flatMap_congr fun c hc => ?_
  have hkeep : c.map (fun x => if x = pathSeperator then 0 else x) = c := by
    refine (map_congr_left fun x hx => ?_).trans (map_id c)
    have hne : x ≠ pathSeperator := fun he => (h c hc).2 (he ▸ hx)
    exact if_neg hne
  rw [map_cons, hkeep, if_pos rfl]

theorem count_joinPath (h : ∀ c ∈ cs, IsComponent c) : (joinPath cs).count pathSeperator = cs.length := by
  induction cs with
  | nil => rfl
  | cons c cs ih =>
    have hc := count_eq_zero.mpr (h c mem_cons_self).2
    have hjoin : joinPath (c :: cs) = pathSeperator :: (c ++ joinPath cs) := rfl
    rw [hjoin, count_cons_self, count_append, hc, ih fun x hx => h x (.tail c hx), length_cons]
    omega

/-- Behind each component there is a terminator. -/
theorem joinNul_head (cs : List Str) : ∃ rest, joinNul cs ++ [0] = 0 :: rest := by
  cases cs with
  | nil => exact ⟨[], rfl⟩
  | cons c cs => exact ⟨c ++ joinNul cs ++ [0], rfl⟩

theorem takeWhile_noNul {rest : Str} (hc : NoNul c) : (c ++ 0 :: rest).takeWhile (· != 0) = c := by
  rw [takeWhile_append_of_pos fun x hx => by simpa using hc x hx, takeWhile_cons]
  simp

theorem stringAt_component (hbuf : buf.drop offset = c ++ (joinNul cs ++ [0])) (hc : NoNul c) : stringAt buf offset = c := by
  obtain ⟨rest, hrest⟩ := joinNul_head cs
  rw [stringAt, hbuf, hrest, takeWhile_noNul hc]

/-! ## The walk -/

/-- Look up one component after the other. -/
def walkNodes (fs : Ext2) (heap : Nat → FsNode) (node : FsNode) (depth : Nat) : List Str → Except Halt (Option FsNode)
  | [] => .ok (some node)
  | c :: cs => do
    match ← vfsFinddir fs node c (heap depth) with
    | none => return none
    | some node => walkNodes fs heap node (depth + 1) cs

/-- The loop walks along the components. -/
theorem openLoop_eq {heap : Nat → FsNode} {pathDepth : Nat} {node : FsNode} {depth : Nat}
    (hdepth : pathDepth = depth + (cs.length + 1)) (hnul : ∀ x ∈ c :: cs, NoNul x) (hbuf : buf.drop offset = c ++ (joinNul cs ++ [0])) :
    openLoop fs heap buf pathDepth node offset depth (cs.length + 1) = walkNodes fs heap node depth (c :: cs) := by
  induction cs generalizing node c offset depth with
  | nil =>
    rw [openLoop, walkNodes, stringAt_component hbuf (hnul c mem_cons_self)]
    congr 1
    funext found
    cases found with
    | none => rfl
    | some node =>
      dsimp only
      rw [if_pos (by rw [hdepth, length_nil]; omega)]
      rfl
  | cons d ds ih =>
    have hstring := stringAt_component hbuf (hnul c mem_cons_self)
    rw [openLoop, walkNodes, hstring]
    congr 1
    funext found
    cases found with
    | none => rfl
    | some node =>
      dsimp only
      rw [if_neg (by rw [hdepth, length_cons]; omega)]
      refine ih (by rw [hdepth, length_cons]; omega) (fun x hx => hnul x (.tail c hx)) ?_
      have hjoin : c ++ (joinNul (d :: ds) ++ [0]) = c ++ [0] ++ (d ++ (joinNul ds ++ [0])) := by
        rw [show joinNul (d :: ds) = 0 :: (d ++ joinNul ds) from rfl]
        simp
      rw [add_assoc, ← drop_drop, hbuf, hjoin]
      exact drop_left' (by simp)

/-- `vfs_openFile` looks up the components of the normalised path. -/
theorem vfsOpenFile_eq (hheap : fs.heapOk = true) (rootFS : FsNode) {name : Str} (hcwd : NoNul cwd) (hname : NoNul name)
    (heap : Nat → FsNode) : vfsOpenFile fs rootFS cwd name heap = walkNodes fs heap rootFS 0 (normalComponents cwd name) := by
  have hcomponent : ∀ c ∈ normalComponents cwd name, IsComponent c := fun c hc => (normalComponents_mem hc).1
  have hnul : ∀ c ∈ normalComponents cwd name, NoNul c := fun c hc => normalComponents_noNul hcwd hname hc
  rw [vfsOpenFile, hheap, normalizePath_eq]
  generalize normalComponents cwd name = cs at hcomponent hnul
  cases cs with
  | nil => rfl
  | cons c cs =>
    have hlen : (joinPath (c :: cs)).length ≠ 1 := by
      have hc := length_pos_iff.mpr (hcomponent c mem_cons_self).1
      rw [show joinPath (c :: cs) = pathSeperator :: (c ++ joinPath cs) from rfl, length_cons, length_append]
      omega
    simp only [Bool.not_true, Bool.false_eq_true, if_false, cons_ne_nil, if_neg hlen]
    rw [count_joinPath hcomponent, map_joinPath hcomponent]
    refine openLoop_eq (by rw [length_cons]; omega) hnul ?_
    show c ++ joinNul cs ++ [0] = _
    rw [append_assoc]

end OmegaOS
