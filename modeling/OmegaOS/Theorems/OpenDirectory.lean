import OmegaOS.Theorems.Descriptors

/-!
# Opening a directory

What `sys_opendir` leaves in the table of descriptors when it returns `NULL`.
-/

namespace OmegaOS

open CStr Function

variable {w : FileWorld} {t t' : NodeTable} {name : Option Str} {node : Nat} {ok : Bool}

/-- Every entry of the table points to a block that is allocated. -/
def NodeTable.NodesLive (t : NodeTable) : Prop := ∀ e ∈ t.fdt, e ∈ t.live

/-- A call that returns `NULL` has left the table as it was, with no entry that points to freed memory. -/
def OpendirAtomic (ok : Bool) (t t' : NodeTable) : Prop := ok = false → t'.fdt = t.fdt ∧ t'.NodesLive

/-- The directory is there, and there is memory for its node and for the entry of the table. -/
def OpendirEnters (w : FileWorld) (name : Option Str) (node : Nat) : Prop :=
  (∃ path opened, name = some path ∧ vfsOpenFile w.fs w.rootFS w.cwd path (w.heap 0) = .ok (some opened)) ∧ node ≠ null ∧ w.listOk = true

theorem bmod_nonneg_iff (n : Nat) : 0 ≤ (n : Int).bmod (2 ^ 32) ↔ n % 2 ^ 32 < 2 ^ 31 := by
  have hpow : (2 : Nat) ^ 32 = 4294967296 := by decide
  rw [hpow, Int.bmod]
  omega

/-- `process_add_file`, when there is memory: a position from `2 ^ 31` on is taken for a failure. -/
theorem processAddFile_added (fdt : List Nat) (node : Nat) :
    (processAddFile true fdt node).2 = fdt ++ [node] ∧ ((processAddFile true fdt node).1 < 0 ↔ ¬ fdt.length % 2 ^ 32 < 2 ^ 31) := by
  refine ⟨rfl, ?_⟩
  rw [← bmod_nonneg_iff, processAddFile, if_pos rfl]
  dsimp only
  split
  · rename_i hfd
    exact iff_of_false (Int.not_lt.mpr hfd) (not_not.mpr hfd)
  · rename_i hfd
    exact iff_of_true (by decide) hfd

/-- The node is entered when there is memory for the entry, and then it stays; without it nothing stays. -/
theorem opendirEnter_cases (w : FileWorld) (t : NodeTable) (node : Nat) :
    (w.listOk = false ∧ opendirEnter w t node = (false, t.kfree node)) ∨
      (w.listOk = true ∧ (opendirEnter w t node).2.fdt = t.fdt ++ [node] ∧
        ((opendirEnter w t node).1 = true ↔ t.fdt.length % 2 ^ 32 < 2 ^ 31 ∧ w.dirOk = true)) := by
  rw [opendirEnter]
  cases w.listOk with
  | false => exact .inl ⟨rfl, rfl⟩
  | true =>
    obtain ⟨hfdt, hneg⟩ := processAddFile_added t.fdt node
    generalize processAddFile true t.fdt node = added at hfdt hneg
    refine .inr ⟨rfl, ?_⟩
    dsimp only
    by_cases hfd : added.1 < 0
    · rw [if_pos hfd]
      exact ⟨hfdt, iff_of_false Bool.false_ne_true fun h => hneg.mp hfd h.1⟩
    · rw [if_neg hfd]
      have hlen := not_not.mp (mt hneg.mpr hfd)
      cases w.dirOk with
      | true => exact ⟨hfdt, iff_of_true rfl ⟨hlen, rfl⟩⟩
      | false => exact ⟨hfdt, iff_of_false Bool.false_ne_true fun h => Bool.false_ne_true h.2⟩

/-- What the call does: nothing to the table, or an entry of the table that is there to stay. -/
theorem sysOpendirAt_cases (hr : sysOpendirAt w t name node = .ok (ok, t')) :
    (¬ OpendirEnters w name node ∧ (t' = t ∨ t' = (t.kmalloc node).kfree node)) ∨
      (OpendirEnters w name node ∧ t'.fdt = t.fdt ++ [node] ∧ (ok = true ↔ t.fdt.length % 2 ^ 32 < 2 ^ 31 ∧ w.dirOk = true)) := by
  cases name with
  | none =>
    cases hr
    refine .inl ⟨?_, .inl rfl⟩
    rintro ⟨⟨path, opened, hname, -⟩, -⟩
    cases hname
  | some path =>
    obtain ⟨opened, hopen, hr⟩ := bind_eq_ok.mp hr
    by_cases hstop : opened.isNone ∨ node = null
    · rw [if_pos hstop] at hr
      cases hr
      refine .inl ⟨?_, .inl rfl⟩
      rintro ⟨⟨_, found, hname, hfound⟩, hnode, -⟩
      cases hname
      cases hopen.symm.trans hfound
      exact hstop.elim (fun h => by cases h) hnode
    · rw [if_neg hstop] at hr
      obtain ⟨found, rfl⟩ := Option.ne_none_iff_exists'.mp fun h : opened = none => hstop (.inl (h ▸ rfl))
      have hnode : node ≠ null := fun h => hstop (.inr h)
      have heq := Except.ok.inj hr
      rcases opendirEnter_cases w (t.kmalloc node) node with ⟨hlist, hsame⟩ | ⟨hlist, hfdt, hok⟩
      · cases heq.symm.trans hsame
        refine .inl ⟨?_, .inr rfl⟩
        rintro ⟨-, -, htrue⟩
        cases hlist.symm.trans htrue
      · rw [heq] at hfdt hok
        exact .inr ⟨⟨⟨path, found, rfl, hopen⟩, hnode, hlist⟩, hfdt, hok⟩

/-! ## The table of nodes -/

/-- The entry of a new node in the table of nodes and in that of pointers. -/
theorem processAddFile_map {fdt : List Nat} (content : Nat → FsNode) (x : FsNode) (listOk : Bool) (hfresh : node ∉ fdt) :
    processAddFile listOk (fdt.map content) x = ((processAddFile listOk fdt node).1,
      (processAddFile listOk fdt node).2.map (update content node x)) := by
  have hold : fdt.map (update content node x) = fdt.map content :=
    List.map_congr_left fun e he => update_of_ne (fun h : e = node => hfresh (h ▸ he)) _ _
  cases listOk <;> simp [processAddFile, hold]

/-- The table of pointers follows the table of nodes: they hold the same, whatever is in the memory of a node that is freed. -/
theorem sysOpendirAt_refines {content : Nat → FsNode} (hnode : node ≠ null) (hfresh : node ∉ t.fdt)
    (hr : sysOpendir w (t.fdt.map content) name = .ok r) :
    ∃ ok t' content', sysOpendirAt w t name node = .ok (ok, t') ∧ r.fdt = t'.fdt.map content' ∧ (r.ret < 0 ↔ ok = false) := by
  have hneg : (-1 : Int) < 0 := by decide
  cases name with
  | none =>
    cases hr
    exact ⟨false, t, content, rfl, rfl, iff_of_true hneg rfl⟩
  | some path =>
    obtain ⟨opened, hopen, hr⟩ := bind_eq_ok.mp hr
    cases opened with
    | none =>
      cases hr
      refine ⟨false, t, content, ?_, rfl, iff_of_true hneg rfl⟩
      rw [sysOpendirAt, hopen]
      rfl
    | some found =>
      have hat : sysOpendirAt w t (some path) node = .ok (opendirEnter w (t.kmalloc node) node) := by
        rw [sysOpendirAt, hopen]
        exact if_neg fun h => h.elim (fun h => by cases h) hnode
      rw [hat]
      have hentry := fun x => processAddFile_map content x w.listOk hfresh
      dsimp only at hr
      rw [hentry found] at hr
      have hsame : (t.kmalloc node).fdt = t.fdt := rfl
      rw [opendirEnter, hsame]
      by_cases hlt : (processAddFile w.listOk t.fdt node).1 < 0
      · rw [if_pos hlt] at hr
        cases hr
        refine ⟨false, _, _, congrArg Except.ok (if_pos hlt), rfl, iff_of_true hneg rfl⟩
      · rw [if_neg hlt] at hr
        have hlist : w.listOk = true := by
          cases hlist : w.listOk with
          | true => rfl
          | false =>
            rw [hlist] at hlt
            exact absurd (show -enomem < 0 by decide) hlt
        cases hdir : w.dirOk with
        | true =>
          rw [hdir] at hr
          cases hr
          exact ⟨true, _, _, congrArg Except.ok (if_neg hlt), rfl, iff_of_false hlt Bool.false_ne_true.symm⟩
        | false =>
          rw [hdir] at hr
          cases hr
          have hfreed : t.fdt.map content ++ [w.freed] = (processAddFile w.listOk t.fdt node).2.map (update content node w.freed) := by
            refine Eq.trans ?_ (congrArg Prod.snd (hentry w.freed))
            rw [hlist]
            rfl
          exact ⟨false, _, _, congrArg Except.ok (if_neg hlt), hfreed, iff_of_true hneg rfl⟩

/-- A call that returns `NULL` leaves the table as it was exactly when the node had not been entered in it, which is so unless there is
memory for everything but the `DIR`. -/
theorem opendir_atomic_iff (hlive : t.NodesLive) (hr : sysOpendirAt w t name node = .ok (ok, t')) :
    OpendirAtomic ok t t' ↔ (OpendirEnters w name node → t.fdt.length % 2 ^ 32 < 2 ^ 31 ∧ w.dirOk = true) := by
  rcases sysOpendirAt_cases hr with ⟨hout, hsame⟩ | ⟨hin, hfdt, hok⟩
  · refine iff_of_true (fun _ => ?_) fun hin => absurd hin hout
    rcases hsame with rfl | rfl
    · exact ⟨rfl, hlive⟩
    · refine ⟨rfl, fun e he => ?_⟩
      rw [NodeTable.kfree, NodeTable.kmalloc, List.erase_cons_head]
      exact hlive e he
  · rw [forall_prop_of_true hin, ← hok]
    constructor
    · intro hatomic
      by_contra hnull
      have heq := (hatomic (Bool.eq_false_iff.mpr hnull)).1
      rw [hfdt] at heq
      simpa using congrArg List.length heq
    · intro htrue hfalse
      cases htrue.symm.trans hfalse

/-- A table of three nodes. -/
def threeNodes : NodeTable := ⟨[0x10, 0x20, 0x30], [0x30, 0x20, 0x10]⟩

theorem threeNodes_live : threeNodes.NodesLive := by
  unfold NodeTable.NodesLive
  decide

/-- There is no memory for the entry of the root directory: the call returns `NULL`, and the table is as before. -/
theorem opendir_atomic_root :
    ∃ t', sysOpendirAt { blankWorld with listOk := false } threeNodes (some [pathSeperator]) 0x40 = .ok (false, t') ∧
      OpendirAtomic false threeNodes t' := by
  have hr : sysOpendirAt { blankWorld with listOk := false } threeNodes (some [pathSeperator]) 0x40 = .ok (false, threeNodes) := rfl
  exact ⟨_, hr, (opendir_atomic_iff threeNodes_live hr).mpr fun hin => nomatch hin.2.2⟩

/-- There is no memory for the `DIR`: the node is freed and its entry stays. -/
theorem opendir_leaves_freed :
    ∃ t', threeNodes.NodesLive ∧ sysOpendirAt { blankWorld with dirOk := false } threeNodes (some [pathSeperator]) 0x40 = .ok (false, t') ∧
      0x40 ∈ t'.fdt ∧ 0x40 ∉ t'.live ∧ ¬ OpendirAtomic false threeNodes t' := by
  have hr : sysOpendirAt { blankWorld with dirOk := false } threeNodes (some [pathSeperator]) 0x40 =
    .ok (false, ⟨[0x10, 0x20, 0x30, 0x40], [0x30, 0x20, 0x10]⟩) := rfl
  exact ⟨_, threeNodes_live, hr, by decide, by decide, fun h => absurd (h rfl).1 (by decide)⟩

end OmegaOS
