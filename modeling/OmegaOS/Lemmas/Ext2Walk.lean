import OmegaOS.Lemmas.Ext2Remove

/-!
# Walks over the records of a block

What the loops over the records of a block read, whatever the block holds. The relations have one rule for each place of a loop that reads
the buffer, and one for each way to go on; the blocks on which every loop ends and stays inside the buffer are those of `Walkable`.
-/

namespace OmegaOS

open ByteMem CStr

variable {bs limit c d o x fuel skip : Nat} {m : Mem} {name : Str}

/-! ## Bytes of the buffer that are read -/

/-- The loop of `ext2_finddir` over a block, from the record at `d` on: it reads the byte at `x`. -/
inductive FindReads (bs : Nat) (m : Mem) (name : Str) : Nat → Nat → Prop where
  | name {d x : Nat} : StrcmpReads m (d + dirHeader) name x → FindReads bs m name d x
  | inode {d x : Nat} : strEq m (d + dirHeader) name = true → d ≤ x → x < d + 4 → FindReads bs m name d x
  | length {d x : Nat} : strEq m (d + dirHeader) name = false → d + 4 ≤ x → x < d + 6 → FindReads bs m name d x
  | next {d x : Nat} : strEq m (d + dirHeader) name = false → d + recLen m d < bs → FindReads bs m name (d + recLen m d) x →
      FindReads bs m name d x

/-- The loop of `ext2_readdir`, with `skip` records to go. -/
inductive ReaddirReads (bs : Nat) (m : Mem) : Nat → Nat → Nat → Prop where
  | inode {d x : Nat} : d ≤ x → x < d + 4 → ReaddirReads bs m 0 d x
  | name {d x : Nat} : StrcpyReads m (d + dirHeader) x → ReaddirReads bs m 0 d x
  | length {skip d x : Nat} : d + 4 ≤ x → x < d + 6 → ReaddirReads bs m (skip + 1) d x
  | next {skip d x : Nat} : d + recLen m d < bs → ReaddirReads bs m skip (d + recLen m d) x → ReaddirReads bs m (skip + 1) d x

/-- The loop of `insertInodeInDir`. -/
inductive InsertReads (bs : Nat) (m : Mem) : Nat → Nat → Prop where
  | length {d x : Nat} : d + 4 ≤ x → x < d + 6 → InsertReads bs m d x
  | nameLen {d : Nat} : bs ≤ d + recLen m d → InsertReads bs m d (d + 6)
  | next {d x : Nat} : d + recLen m d < bs → InsertReads bs m (d + recLen m d) x → InsertReads bs m d x

/-- The second loop of `deleteInodeFromDir`, which ends at the first record that reaches `limit`. -/
inductive LastReads (limit : Nat) (m : Mem) : Nat → Nat → Prop where
  | length {d x : Nat} : d + 4 ≤ x → x < d + 6 → LastReads limit m d x
  | next {d x : Nat} : d + recLen m d < limit → LastReads limit m (d + recLen m d) x → LastReads limit m d x

/-- The loop of `deleteInodeFromDir`. The second loop, over the block without the record, counts from behind the record. -/
inductive DeleteReads (bs : Nat) (m : Mem) (name : Str) : Nat → Nat → Prop where
  | name {d x : Nat} : StrcmpReads m (d + dirHeader) name x → DeleteReads bs m name d x
  | inode {d x : Nat} : strEq m (d + dirHeader) name = true → d ≤ x → x < d + 4 → DeleteReads bs m name d x
  | length {d x : Nat} : d + 4 ≤ x → x < d + 6 → DeleteReads bs m name d x
  | moved {d x : Nat} : strEq m (d + dirHeader) name = true → d + recLen m d ≤ x → x < bs → DeleteReads bs m name d x
  | second {d x : Nat} : strEq m (d + dirHeader) name = true → d + recLen m d < bs →
      LastReads (bs - (d + recLen m d)) (removed bs m d) 0 x → DeleteReads bs m name d x
  | next {d x : Nat} : strEq m (d + dirHeader) name = false → d + recLen m d < bs → DeleteReads bs m name (d + recLen m d) x →
      DeleteReads bs m name d x

/-! ## Records that a walk comes to -/

/-- The records that a walk comes to from the one at `c` on; it ends at the first that reaches `limit`. -/
inductive Visited (limit : Nat) (m : Mem) (c : Nat) : Nat → Prop where
  | start : Visited limit m c c
  | next {d : Nat} : Visited limit m c d → d + recLen m d < limit → Visited limit m c (d + recLen m d)

/-- The name of the record at `d` ends inside the block. -/
def NameEnds (bs : Nat) (m : Mem) (d : Nat) : Prop := ∃ t, d + dirHeader ≤ t ∧ t < bs ∧ m t = 0

/-- `strcpy` writes byte `y` of its destination when it copies the name of the record at `d`. -/
def NameCopies (m : Mem) (d y : Nat) : Prop := StrcpyReads m (d + dirHeader) (d + dirHeader + y)

/-- The name of the record at `d` fits in `FS_MAX_PATH` bytes. -/
def NameFits (m : Mem) (d : Nat) : Prop := ∃ t < fsMaxPath, m (d + dirHeader + t) = 0

/-- Every record of the block moves a walk on and has a name that ends inside the block. -/
def Walkable (bs : Nat) (m : Mem) : Prop := ∀ d, Visited bs m 0 d → 0 < recLen m d ∧ NameEnds bs m d

/-- Every record of the block moves a walk on and has the fields that `insertInodeInDir` reads inside the block. -/
def InsertWalkable (bs : Nat) (m : Mem) : Prop :=
  ∀ d, Visited bs m 0 d → 0 < recLen m d ∧ d + 6 ≤ bs ∧ (bs ≤ d + recLen m d → d + 6 < bs)

/-- Every record that comes before `limit` moves a walk on and has its length inside the block. -/
def LengthsInside (bs limit : Nat) (m : Mem) : Prop := ∀ d, Visited limit m 0 d → 0 < recLen m d ∧ d + 6 ≤ bs

theorem Visited.trans (h : Visited limit m d o) (hd : Visited limit m c d) : Visited limit m c o := by
  induction h with
  | start => exact hd
  | next _ hlt ih => exact .next ih hlt

theorem Visited.le (h : Visited limit m c o) : c ≤ o := by
  induction h with
  | start => exact Nat.le_refl c
  | next _ _ ih => omega

/-- A walk that goes on comes to the records behind. -/
theorem Visited.of_next (hlt : c + recLen m c < limit) (h : Visited limit m (c + recLen m c) o) : Visited limit m c o :=
  h.trans (.next .start hlt)

theorem Visited.cases_head (h : Visited limit m c o) : o = c ∨ c + recLen m c < limit ∧ Visited limit m (c + recLen m c) o := by
  induction h with
  | start => exact .inl rfl
  | next _ hlt ih =>
    rcases ih with rfl | ⟨hc, hrest⟩
    · exact .inr ⟨hlt, .start⟩
    · exact .inr ⟨hc, .next hrest hlt⟩

theorem nameFits_iff : (∀ y, NameCopies m d y → y < fsMaxPath) ↔ NameFits m d := by
  constructor
  · intro h
    by_contra hno
    refine Nat.lt_irrefl _ (h fsMaxPath ⟨Nat.le_add_right _ _, fun x hx hlt hzero => hno ⟨x - (d + dirHeader), by omega, ?_⟩⟩)
    rwa [Nat.add_sub_cancel' hx]
  · rintro ⟨t, ht, hzero⟩ y hy
    have := hy.le_of_terminated (Nat.le_add_right _ t) hzero
    omega

/-! ## The loops on a walkable block -/

section

variable (h : NameEnds bs m d)

include h

/-- The fields before the name are inside the block as well. -/
theorem NameEnds.header (hx : x ≤ d + 8) : x < bs := by
  obtain ⟨t, hle, hlt, -⟩ := h
  unfold dirHeader at hle
  omega

theorem NameEnds.strcmp (hname : NoNul name) (hx : StrcmpReads m (d + dirHeader) name x) : x < bs := by
  obtain ⟨t, hle, hlt, hzero⟩ := h
  exact Nat.lt_of_le_of_lt (hx.le_of_terminated hname hle hzero) hlt

theorem NameEnds.strcpy (hx : StrcpyReads m (d + dirHeader) x) : x < bs := by
  obtain ⟨t, hle, hlt, hzero⟩ := h
  exact Nat.lt_of_le_of_lt (hx.le_of_terminated hle hzero) hlt

end

theorem FindReads.inside (h : Walkable bs m) (hname : NoNul name) (hd : Visited bs m 0 d) (hx : FindReads bs m name d x) : x < bs := by
  induction hx with
  | name hread => exact (h _ hd).2.strcmp hname hread
  | inode _ _ hlt | length _ _ hlt => exact (h _ hd).2.header (by omega)
  | next _ hlt _ ih => exact ih (.next hd hlt)

theorem ReaddirReads.inside (h : Walkable bs m) (hd : Visited bs m 0 d) (hx : ReaddirReads bs m skip d x) : x < bs := by
  induction hx with
  | name hread => exact (h _ hd).2.strcpy hread
  | inode _ hlt | length _ hlt => exact (h _ hd).2.header (by omega)
  | next hlt _ ih => exact ih (.next hd hlt)

theorem LastReads.inside (h : LengthsInside bs limit m) (hd : Visited limit m 0 d) (hx : LastReads limit m d x) : x < bs := by
  induction hx with
  | length _ hlt =>
    have := (h _ hd).2
    omega
  | next hlt _ ih => exact ih (.next hd hlt)

theorem InsertReads.inside (h : InsertWalkable bs m) (hd : Visited bs m 0 d) (hx : InsertReads bs m d x) : x < bs := by
  induction hx with
  | length _ hlt =>
    have := (h _ hd).2.1
    omega
  | nameLen hlast => exact (h _ hd).2.2 hlast
  | next hlt _ ih => exact ih (.next hd hlt)

theorem InsertReads.of_visited (ho : Visited bs m c o) (hx : InsertReads bs m o x) : InsertReads bs m c x := by
  induction ho with
  | start => exact hx
  | next _ hlt ih => exact ih (.next hlt hx)

/-- The search for the last record ends when every record moves it on. -/
theorem lastRecord_ends (h : ∀ o, Visited limit m c o → 0 < recLen m o) (hc : c < limit) (hfuel : limit ≤ c + fuel) :
    ∃ d, lastRecord limit m fuel c = .ok d ∧ Visited limit m c d ∧ limit ≤ d + recLen m d := by
  induction fuel generalizing c with
  | zero => omega
  | succ fuel ih =>
    have hpos := h c .start
    rw [lastRecord]
    by_cases hlast : limit ≤ c + recLen m c
    · rw [if_pos hlast]
      exact ⟨c, rfl, .start, hlast⟩
    · rw [if_neg hlast]
      obtain ⟨d, hrun, hd, hend⟩ := ih (fun o ho => h o (ho.of_next (by omega))) (by omega) (by omega)
      exact ⟨d, hrun, hd.of_next (by omega), hend⟩

theorem lastRecord_spins (ho : Visited limit m c o) (hzero : recLen m o = 0) (hc : c < limit) (fuel : Nat) :
    lastRecord limit m fuel c = .error .spin := by
  induction fuel generalizing c with
  | zero => rfl
  | succ fuel ih =>
    rw [lastRecord]
    rcases ho.cases_head with rfl | ⟨hlt, hrest⟩
    · rw [if_neg (by omega), hzero]
      exact ih ho hc
    · rw [if_neg (by omega)]
      exact ih hrest hlt

/-- A block whose last record is found, with all that is read inside, is safe to insert in. -/
theorem insertWalkable_of_safe (hbs : 0 < bs) (hends : lastRecord bs m bs 0 ≠ .error .spin)
    (hinside : ∀ x, InsertReads bs m 0 x → x < bs) : InsertWalkable bs m := by
  intro d hd
  refine ⟨?_, ?_, fun hlast => hinside _ (.of_visited hd (.nameLen hlast))⟩
  · by_contra hzero
    exact hends (lastRecord_spins hd (Nat.eq_zero_of_not_pos hzero) hbs bs)
  · exact hinside _ (.of_visited hd (.length (Nat.le_succ (d + 4)) (Nat.lt_succ_self (d + 5))))

/-- The first record of a name that a walk from `c` comes to. -/
structure FirstHit (bs : Nat) (m : Mem) (name : Str) (c d : Nat) : Prop where
  visited : Visited bs m c d
  hit : strEq m (d + dirHeader) name = true
  before : ∀ o, Visited bs m c o → o < d → strEq m (o + dirHeader) name = false

/-- The search for a name ends, at the first record of the name or behind the last one. -/
theorem findWithPrev_ends (name : Str) (h : ∀ o, Visited bs m c o → 0 < recLen m o) (hc : c < bs) (hfuel : bs ≤ c + fuel)
    (prev : Option Nat) :
    (Ext2.findWithPrev bs m name fuel prev c = .ok none ∧ ∀ o, Visited bs m c o → strEq m (o + dirHeader) name = false) ∨
      ∃ p d, Ext2.findWithPrev bs m name fuel prev c = .ok (some (p, d)) ∧ FirstHit bs m name c d ∧ (p = none → prev = none ∧ d = c) := by
  induction fuel generalizing c prev with
  | zero => omega
  | succ fuel ih =>
    have hpos := h c .start
    rw [Ext2.findWithPrev]
    cases hhit : strEq m (c + dirHeader) name with
    | true =>
      refine .inr ⟨prev, c, rfl, ⟨.start, hhit, fun o ho hlt => ?_⟩, fun hprev => ⟨hprev, rfl⟩⟩
      exact absurd ho.le (by omega)
    | false =>
      rw [if_neg (by simp)]
      by_cases hlast : bs ≤ c + recLen m c
      · rw [if_pos hlast]
        refine .inl ⟨rfl, fun o ho => ?_⟩
        rcases ho.cases_head with rfl | ⟨hlt, -⟩
        · exact hhit
        · omega
      · rw [if_neg hlast]
        have hnext : c + recLen m c < bs := by omega
        rcases ih (fun o ho => h o (ho.of_next hnext)) hnext (by omega) (some c) with ⟨hrun, hmiss⟩ | ⟨p, d, hrun, hfirst, hprev⟩
        · refine .inl ⟨hrun, fun o ho => ?_⟩
          rcases ho.cases_head with rfl | ⟨-, hrest⟩
          · exact hhit
          · exact hmiss o hrest
        · refine .inr ⟨p, d, hrun, ⟨hfirst.visited.of_next hnext, hfirst.hit, fun o ho hlt => ?_⟩, fun hp => ?_⟩
          · rcases ho.cases_head with rfl | ⟨-, hrest⟩
            · exact hhit
            · exact hfirst.before o hrest hlt
          · cases (hprev hp).1

/-- `ext2_readdir` comes to each record of a walk with the index of the record. -/
theorem Visited.nthRecord (h : Visited bs m c o) (n : Nat) : ∃ skip, Ext2.nthRecord bs m skip c = Ext2.nthRecord bs m n o := by
  induction h generalizing n with
  | start => exact ⟨n, rfl⟩
  | next _ hlt ih =>
    obtain ⟨skip, hskip⟩ := ih (n + 1)
    exact ⟨skip, by rw [hskip, Ext2.nthRecord, if_neg (by omega)]⟩

/-- With a large index it goes through the whole block, with any number of records left to skip. -/
theorem Walkable.nthRecord_rest (h : Walkable bs m) (hbs : 0 < bs) (n : Nat) : ∃ skip, Ext2.nthRecord bs m skip 0 = .inr n := by
  obtain ⟨d, -, hd, hlast⟩ := lastRecord_ends (fun o ho => (h o ho).1) hbs (Nat.le_add_left bs 0)
  obtain ⟨skip, hskip⟩ := hd.nthRecord (n + 1)
  exact ⟨skip, by rw [hskip, Ext2.nthRecord, if_pos hlast]⟩

theorem FirstHit.unique (h : FirstHit bs m name c d) (h' : FirstHit bs m name c d') : d = d' := by
  rcases Nat.lt_trichotomy d d' with hlt | heq | hlt
  · exact absurd (h'.before d h.visited hlt) (by simp [h.hit])
  · exact heq
  · exact absurd (h.before d' h'.visited hlt) (by simp [h'.hit])

/-- The search of a walkable block finds the first record of a name. -/
theorem FirstHit.found (h : FirstHit bs m name 0 d) (hw : Walkable bs m) (hbs : 0 < bs) :
    ∃ p, Ext2.findWithPrev bs m name bs none 0 = .ok (some (p, d)) := by
  rcases findWithPrev_ends name (fun o ho => (hw o ho).1) hbs (Nat.le_add_left bs 0) none with ⟨-, hmiss⟩ | ⟨p, d', hrun, hfirst, -⟩
  · exact absurd (hmiss d h.visited) (by simp [h.hit])
  · rw [hfirst.unique h] at hrun
    exact ⟨p, hrun⟩

/-- Without the first record of any name but `.` and `..`, the lengths that the second loop reads lie inside the block. -/
def RemovalWalkable (bs : Nat) (m : Mem) : Prop :=
  ∀ name d, NoNul name → name ≠ Ext2.pathCurrDir → name ≠ Ext2.pathUpDir → FirstHit bs m name 0 d → d + recLen m d < bs →
    LengthsInside bs (bs - (d + recLen m d)) (removed bs m d)

theorem DeleteReads.inside (hw : Walkable bs m) (hr : RemovalWalkable bs m) (hname : NoNul name) (hcurr : name ≠ Ext2.pathCurrDir)
    (hup : name ≠ Ext2.pathUpDir) (hd : Visited bs m 0 d)
    (hmiss : ∀ o, Visited bs m 0 o → Visited bs m d o ∨ strEq m (o + dirHeader) name = false) (hx : DeleteReads bs m name d x) :
    x < bs := by
  induction hx with
  | name hread => exact (hw _ hd).2.strcmp hname hread
  | inode _ _ hlt | length _ hlt => exact (hw _ hd).2.header (by omega)
  | moved _ _ hlt => exact hlt
  | second hhit hmiddle hread =>
    have hfirst : FirstHit bs m name 0 _ := ⟨hd, hhit, fun o ho hlt => (hmiss o ho).resolve_left fun hbehind => absurd hbehind.le (by omega)⟩
    exact hread.inside (hr name _ hname hcurr hup hfirst hmiddle) .start
  | next hno hlt _ ih =>
    refine ih (.next hd hlt) fun o ho => ?_
    rcases hmiss o ho with hbehind | hmiss
    · rcases hbehind.cases_head with rfl | ⟨-, hrest⟩
      · exact .inr hno
      · exact .inl hrest
    · exact .inr hmiss

/-- What the search reads at a record that it comes to. -/
theorem DeleteReads.of_visited (hpos : ∀ o, Visited bs m c o → 0 < recLen m o) (ho : Visited bs m c o)
    (hmiss : ∀ p, Visited bs m c p → p < o → strEq m (p + dirHeader) name = false) (hx : DeleteReads bs m name o x) :
    DeleteReads bs m name c x := by
  induction ho with
  | start => exact hx
  | @next d hd hlt ih =>
    have := hpos d hd
    exact ih (fun p hp hpd => hmiss p hp (by omega)) (.next (hmiss d hd (by omega)) hlt hx)

theorem LastReads.of_visited (ho : Visited limit m c o) (hx : LastReads limit m o x) : LastReads limit m c x := by
  induction ho with
  | start => exact hx
  | next _ hlt ih => exact ih (.next hlt hx)

theorem Tiles.visited {ds : List Nat} (h : Tiles m e c ds) (hlimit : limit ≤ e) (hc : c < limit) (ho : Visited limit m c o) : o ∈ ds := by
  induction ds generalizing c with
  | nil =>
    have hce : c = e := h
    omega
  | cons d ds ih =>
    obtain ⟨rfl, -, hrest⟩ := h
    rcases ho.cases_head with rfl | ⟨hlt, hbehind⟩
    · exact List.mem_cons_self
    · exact List.mem_cons_of_mem _ (ih hrest hlt hbehind)

end OmegaOS
