import OmegaOS.Lemmas.Path
import OmegaOS.PathBuffer

/-!
# Paths in memory

On buffers that hold strings, `strtok` and the loops over it find the tokens of the strings, and the assembly writes the path of the
components: what `normalizePath` leaves in memory is the normalised path.
-/

namespace OmegaOS

open ByteMem CStr List Function

variable {m : Mem} {a n p off : Nat} {s : Str}

theorem strchr_seperator (hc : c ≠ 0) : strchr pathSeperatorStr c = (c == pathSeperator) := by
  rw [pathSeperatorStr, strchr, strchr, beq_false_of_ne hc, Bool.or_false, BEq.comm]

section

variable (h : HoldsStr m a s) (hs : NoNul s)

include h hs

theorem strspn_eq (hn : s.length ≤ n) : strspn m pathSeperatorStr n a = (s.takeWhile (· == pathSeperator)).length := by
  induction s generalizing a n with
  | nil =>
    have hzero : m a = 0 := h
    cases n <;> simp [strspn, hzero]
  | cons c s ih =>
    obtain ⟨n, rfl⟩ := Nat.exists_eq_add_of_le' (show 1 ≤ n by rw [length_cons] at hn; omega)
    have hc : c ≠ 0 := hs c mem_cons_self
    have hrest := ih h.2 hs.tail (Nat.le_of_succ_le_succ hn)
    rw [strspn, h.1, strchr_seperator hc, takeWhile_cons]
    by_cases hsep : (c == pathSeperator) = true
    · rw [if_pos ⟨hc, hsep⟩, if_pos hsep, hrest, length_cons]
    · rw [if_neg fun hboth => hsep hboth.2, if_neg hsep, length_nil]

theorem strcspn_eq (hn : s.length ≤ n) : strcspn m pathSeperatorStr n a = (s.takeWhile (· != pathSeperator)).length := by
  induction s generalizing a n with
  | nil =>
    have hzero : m a = 0 := h
    cases n <;> simp [strcspn, hzero]
  | cons c s ih =>
    obtain ⟨n, rfl⟩ := Nat.exists_eq_add_of_le' (show 1 ≤ n by rw [length_cons] at hn; omega)
    have hc : c ≠ 0 := hs c mem_cons_self
    have hrest := ih h.2 hs.tail (Nat.le_of_succ_le_succ hn)
    rw [strcspn, h.1, if_neg hc, strchr_seperator hc, takeWhile_cons, bne]
    cases hsep : c == pathSeperator <;> simp [hrest]

/-! ## Tokens -/

/-- What `strtok` keeps: a pointer to the rest of the string, or none when the string is used up. -/
def Pending (m : Mem) (p : Nat) (s : Str) : Prop := (p = null ∧ s = []) ∨ (p ≠ null ∧ HoldsStr m p s)

/-- `strtok` on memory does what it does on strings. -/
theorem strtokAt_holds (ha : a ≠ null) (hn : s.length ≤ n) : (strtok s = none ∧ strtokAt m p a n = (null, null, m)) ∨
      ∃ token rest t p' m', strtok s = some (token, rest) ∧ strtokAt m p a n = (t, p', m') ∧ t ≠ null ∧ HoldsStr m' t token ∧
        Pending m' p' rest := by
  have hspan := strspn_eq h hs hn
  have hsplit := takeWhile_append_dropWhile (p := (· == pathSeperator)) (l := s)
  have hlen := congrArg length hsplit
  rw [length_append] at hlen
  rw [← hsplit] at h
  have hdrop := h.drop
  rw [← hspan] at hdrop
  have hs' : NoNul (s.dropWhile (· == pathSeperator)) := fun c hc => hs c ((dropWhile_suffix _).subset hc)
  rw [strtok, strtokAt]
  simp only [if_neg ha]
  generalize strspn m pathSeperatorStr n a = k at *
  generalize s.dropWhile (· == pathSeperator) = s' at *
  cases hcons : s' with
  | nil =>
    rw [hcons] at hdrop
    have hzero : m (a + k) = 0 := hdrop
    exact .inl ⟨if_pos rfl, if_pos hzero⟩
  | cons c t =>
    have hbyte : m (a + k) ≠ 0 := by
      rw [hcons] at hdrop hs'
      rw [hdrop.1]
      exact hs' c mem_cons_self
    have ht : a + k ≠ null := by
      unfold null at *
      omega
    rw [← hcons]
    have hword := strcspn_eq hdrop hs' (show s'.length ≤ n by omega)
    have hcut := takeWhile_append_dropWhile (p := (· != pathSeperator)) (l := s')
    right
    rw [if_neg (by rw [hcons]; simp), if_neg hbyte, hword]
    cases hrest : s'.dropWhile (· != pathSeperator) with
    | nil =>
      rw [hrest, append_nil] at hcut
      rw [hcut, if_neg fun hne => hne hdrop.end_eq_zero]
      exact ⟨_, _, _, _, _, rfl, rfl, ht, hdrop, .inl ⟨rfl, rfl⟩⟩
    | cons d r =>
      rw [hrest] at hcut
      generalize s'.takeWhile (· != pathSeperator) = w at *
      rw [← hcut] at hdrop hs'
      have hd : m (a + k + w.length) ≠ 0 := by
        rw [hdrop.drop.1]
        exact hs' d (by simp)
      rw [if_pos hd]
      obtain ⟨htoken, hnext⟩ := hdrop.cut
      exact ⟨_, _, _, _, _, rfl, rfl, ht, htoken, Or.inr ⟨Nat.succ_ne_zero _, hnext⟩⟩

end

theorem strtokAt_pending (h : Pending m p s) (hs : NoNul s) (hn : s.length ≤ n) :
    (strtok s = none ∧ ∃ p', strtokAt m p null n = (null, p', m)) ∨
      ∃ token rest t p' m', strtok s = some (token, rest) ∧ strtokAt m p null n = (t, p', m') ∧ t ≠ null ∧ HoldsStr m' t token ∧
        Pending m' p' rest := by
  rcases h with ⟨rfl, rfl⟩ | ⟨hp, hholds⟩
  · exact .inl ⟨rfl, null, rfl⟩
  · have hsame : strtokAt m p null n = strtokAt m p p n := by
      simp only [strtokAt, ite_self, if_true]
    rw [hsame]
    rcases strtokAt_holds hholds hs hp hn with ⟨hnone, heq⟩ | hsome
    · exact .inl ⟨hnone, null, heq⟩
    · exact .inr hsome

theorem strtok_length {token rest : Str} (h : strtok s = some (token, rest)) :
    token.length + rest.length ≤ s.length ∧ token ⊆ s ∧ rest ⊆ s := by
  have hdrop := (dropWhile_suffix (· == pathSeperator) (l := s))
  have hsplit := congrArg length (takeWhile_append_dropWhile (p := (· != pathSeperator)) (l := s.dropWhile (· == pathSeperator)))
  rw [strtok] at h
  generalize s.dropWhile (· == pathSeperator) = s' at *
  split at h
  · cases h
  · cases h
    rw [length_append] at hsplit
    have hlen := hdrop.length_le
    refine ⟨by rw [length_drop]; omega, List.Subset.trans (takeWhile_subset _) hdrop.subset,
      List.Subset.trans (List.Subset.trans (drop_subset _ _) (dropWhile_suffix _).subset) hdrop.subset⟩

/-- The strings that a loop visits once `strtok` has returned its first token. -/
theorem tokenLoop_eq (fuel : Nat) (h : Pending m p s) (hs : NoNul s) (hn : s.length ≤ n)
    (heq : strtokAt m p null n = (t, p', m')) : (tokenLoop n fuel t p' m').1 = strtokLoop fuel s := by
  induction fuel generalizing m p s t p' m' with
  | zero => rfl
  | succ fuel ih =>
    rcases strtokAt_pending h hs hn with ⟨hnone, p1, hnull⟩ | ⟨token, rest, t1, p1, m1, hsome, htok, ht, htoken, hrest⟩
    · cases heq.symm.trans hnull
      rw [strtokLoop, hnone]
      rfl
    · cases heq.symm.trans htok
      obtain ⟨hlen, hsub, hsub'⟩ := strtok_length hsome
      have hitem := htoken.strAt (fun c hc => hs c (hsub hc)) (show token.length ≤ n by omega)
      have hloop := ih hrest (fun c hc => hs c (hsub' hc)) (by omega) rfl
      rw [tokenLoop, if_neg ht, strtokLoop, hsome]
      dsimp only
      rw [← hloop, hitem]
      rfl

/-- The strings that a loop over a copy of a string visits are its tokens. -/
theorem tokenize_eq (m : Mem) (p : Nat) (ha : a ≠ null) (hs : NoNul s) : (tokenize m p a s).1 = tokens s := by
  have hpending : Pending (strcpy m a s) a s := .inr ⟨ha, holds_strcpy m a s⟩
  have hfirst : strtokAt (strcpy m a s) p a s.length = strtokAt (strcpy m a s) a null s.length := by
    simp only [strtokAt, if_neg ha, if_true]
  rw [tokenize]
  simp only [hfirst]
  exact tokenLoop_eq s.length hpending hs (le_refl _) rfl

/-! ## The assembly -/

theorem assemble_below (m : Mem) (lst : List Str) (hx : x < off) : assemble m off lst x = m x := by
  induction lst generalizing m off with
  | nil => rfl
  | cons item lst ih =>
    rw [assemble, ih _ (by omega), strcpy_outside _ _ (by omega)]
    exact update_of_ne (ne_of_lt hx) _ _

/-- The assembly writes a separator before each component, and a terminator behind the last one. -/
theorem assemble_holds (m : Mem) (lst : List Str) (h : lst ≠ [] ∨ m off = 0) : HoldsStr (assemble m off lst) off (joinPath lst) := by
  induction lst generalizing m off with
  | nil => exact h.resolve_left fun hne => hne rfl
  | cons item lst ih =>
    have hitem := holds_strcpy (update m off pathSeperator) (off + 1) item
    have hend : strcpy (update m off pathSeperator) (off + 1) item (off + 1 + item.length) = 0 := by
      rw [strcpy_inside _ _ _ (le_refl _)]
      simp
    have hsep : strcpy (update m off pathSeperator) (off + 1) item off = pathSeperator := by
      rw [strcpy_outside _ _ (by omega)]
      exact update_self _ _ _
    exact ⟨(assemble_below _ lst (by omega)).trans hsep, hitem.append (fun x _ hhi => assemble_below _ lst hhi) (ih _ (.inr hend))⟩

/-! ## `normalizePath` -/

/-- What `normalizePath` leaves at the pointer that it returns. -/
theorem normalizePathAt_holds (b : PathBuffers) (hcwdCopy : b.cwdCopy ≠ null) (hrlpCopy : b.rlpCopy ≠ null) (m : Mem) (p : Nat)
    {cwd path : Str} (hcwd : NoNul cwd) (hpath : NoNul path) :
    HoldsStr (normalizePathAt b m p cwd path).2.2 (normalizePathAt b m p cwd path).1 (normalizePath cwd path) := by
  have hlst : (if path ≠ [] ∧ path.head? ≠ some pathSeperator then tokenize m p b.cwdCopy cwd else ([], p, m)).1 =
      if path ≠ [] ∧ path.head? ≠ some pathSeperator then tokens cwd else [] := by
    split
    · exact tokenize_eq m p hcwdCopy hcwd
    · rfl
  unfold normalizePathAt normalizePath
  dsimp only
  rw [hlst, tokenize_eq _ _ hrlpCopy hpath]
  generalize (tokens path).foldl pushToken _ = lst
  split
  · exact holds_strcpy _ _ _
  · rename_i hsize
    refine assemble_holds _ lst (.inl ?_)
    rintro rfl
    exact hsize rfl

end OmegaOS
