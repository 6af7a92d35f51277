import OmegaOS.Ext2Dir

/-!
# Records of a directory block

A block that is tiled by records, and what the walks over it and the insertion of a record make of it.
-/

namespace OmegaOS

open ByteMem CStr List

variable {m m' : Mem} {bs d e x : Nat} {ds : List Nat} {name : Str}

/-! ## Tiled blocks -/

/-- A record with room for its name and the terminator, which is there. -/
def RecordOk (m : Mem) (d : Nat) : Prop := dirHeader + nameLen m d + 1 ≤ recLen m d ∧ m (d + dirHeader + nameLen m d) = 0

instance (m : Mem) (d : Nat) : Decidable (RecordOk m d) := inferInstanceAs (Decidable (_ ∧ _))

/-- Records at the offsets `ds`, one behind the other, fill the bytes from `d` to `e`. -/
def Tiles (m : Mem) (e : Nat) : Nat → List Nat → Prop
  | d, [] => d = e
  | d, o :: ds => o = d ∧ RecordOk m d ∧ Tiles m e (d + recLen m d) ds

instance decidableTiles (m : Mem) (e : Nat) : (d : Nat) → (ds : List Nat) → Decidable (Tiles m e d ds)
  | d, [] => inferInstanceAs (Decidable (d = e))
  | d, o :: ds =>
    have := decidableTiles m e (d + recLen m d) ds
    inferInstanceAs (Decidable (o = d ∧ RecordOk m d ∧ Tiles m e (d + recLen m d) ds))

/-- The name of a record. -/
def recName (m : Mem) (d : Nat) : Str := strAt m (d + dirHeader) (nameLen m d)

/-- The entry that a record stands for: its name and its inode. -/
def entryAt (m : Mem) (d : Nat) : Str × Nat := (recName m d, dirInode m d)

/-- `dir->file_type`. -/
def fileType (m : Mem) (d : Nat) : Nat := load m (d + 7) 1

/-- A record in full: its name, its inode and its file type. -/
def recordAt (m : Mem) (d : Nat) : Str × Nat × Nat := (recName m d, dirInode m d, fileType m d)

/-- The entry of a record, which leaves out the file type. -/
def untyped (r : Str × Nat × Nat) : Str × Nat := (r.1, r.2.1)

theorem RecordOk.recLen_pos (h : RecordOk m d) : dirHeader < recLen m d := by
  have := h.1
  omega

theorem Tiles.le (h : Tiles m e d ds) : d ≤ e := by
  induction ds generalizing d with
  | nil => exact Nat.le_of_eq h
  | cons o ds ih =>
    have := ih h.2.2
    omega

/-- The offsets are those of records that lie between the ends. -/
theorem Tiles.mem (h : Tiles m e d ds) (ho : o ∈ ds) : RecordOk m o ∧ d ≤ o ∧ o + recLen m o ≤ e := by
  induction ds generalizing d with
  | nil => cases ho
  | cons a ds ih =>
    obtain ⟨rfl, hok, hrest⟩ := h
    rcases mem_cons.mp ho with rfl | ho
    · exact ⟨hok, .refl, hrest.le⟩
    · obtain ⟨hok', hlo, hhi⟩ := ih hrest ho
      exact ⟨hok', by omega, hhi⟩

theorem Tiles.eq_nil (h : Tiles m e d ds) (hd : e ≤ d) : ds = [] := by
  cases ds with
  | nil => rfl
  | cons o ds =>
    obtain ⟨rfl, hok, hrest⟩ := h
    have := hok.recLen_pos
    have := hrest.le
    omega

theorem tiles_append {es : List Nat} : Tiles m e d (ds ++ es) ↔ ∃ c, Tiles m c d ds ∧ Tiles m e c es := by
  induction ds generalizing d with
  | nil =>
    constructor
    · intro h
      exact ⟨d, rfl, h⟩
    · rintro ⟨c, rfl, h⟩
      exact h
  | cons o ds ih =>
    constructor
    · rintro ⟨ho, hok, hrest⟩
      obtain ⟨c, hc, hes⟩ := ih.mp hrest
      exact ⟨c, ⟨ho, hok, hc⟩, hes⟩
    · rintro ⟨c, ⟨ho, hok, hc⟩, hes⟩
      exact ⟨ho, hok, ih.mpr ⟨c, hc, hes⟩⟩

/-- The offsets of the records of a block from `d` on, `fuel` of them at most. -/
def recordsFrom (bs : Nat) (m : Mem) : Nat → Nat → List Nat
  | 0, _ => []
  | fuel + 1, d => if bs ≤ d then [] else d :: recordsFrom bs m fuel (d + recLen m d)

/-- A block that its records tile exactly. -/
def Tiled (bs : Nat) (m : Mem) : Prop := Tiles m bs 0 (recordsFrom bs m bs 0)

instance (bs : Nat) (m : Mem) : Decidable (Tiled bs m) := inferInstanceAs (Decidable (Tiles ..))

/-- The entries of a block. -/
def blockEntries (bs : Nat) (m : Mem) : List (Str × Nat) := (recordsFrom bs m bs 0).map (entryAt m)

/-- The records of a block. -/
def blockRecords (bs : Nat) (m : Mem) : List (Str × Nat × Nat) := (recordsFrom bs m bs 0).map (recordAt m)

theorem blockEntries_eq (bs : Nat) (m : Mem) : blockEntries bs m = (blockRecords bs m).map untyped := by
  rw [blockEntries, blockRecords, map_map]
  rfl

theorem Tiles.recordsFrom_eq (h : Tiles m bs d ds) {fuel : Nat} (hfuel : bs ≤ d + fuel) : recordsFrom bs m fuel d = ds := by
  induction fuel generalizing d ds with
  | zero => rw [h.eq_nil hfuel, recordsFrom]
  | succ fuel ih =>
    cases ds with
    | nil => rw [recordsFrom, if_pos (Nat.le_of_eq h.symm)]
    | cons o ds =>
      obtain ⟨rfl, hok, hrest⟩ := h
      have hpos := hok.recLen_pos
      have hle := hrest.le
      rw [recordsFrom, if_neg (by omega), ih hrest (by omega)]

theorem Tiles.tiled (h : Tiles m bs 0 ds) : Tiled bs m ∧ blockRecords bs m = ds.map (recordAt m) := by
  have heq := h.recordsFrom_eq (show bs ≤ 0 + bs by omega)
  rw [Tiled, blockRecords, heq]
  exact ⟨h, rfl⟩

/-! ## What a record depends on -/

section

variable (h : ∀ x, d ≤ x → x < d + dirHeader → m' x = m x)

include h

theorem recLen_congr : recLen m' d = recLen m d := load_congr fun x hx hlt => h x (by omega) (by unfold dirHeader; omega)

theorem nameLen_congr : nameLen m' d = nameLen m d := load_congr fun x hx hlt => h x (by omega) (by unfold dirHeader; omega)

theorem dirInode_congr : dirInode m' d = dirInode m d := load_congr fun x hx hlt => h x hx (by unfold dirHeader; omega)

theorem fileType_congr : fileType m' d = fileType m d := load_congr fun x hx hlt => h x (by omega) (by unfold dirHeader; omega)

end

theorem RecordOk.congr (hok : RecordOk m d) (h : ∀ x, d ≤ x → x < d + recLen m d → m' x = m x) :
    RecordOk m' d ∧ recLen m' d = recLen m d ∧ recordAt m' d = recordAt m d := by
  obtain ⟨hlen, hnul⟩ := hok
  have hheader : ∀ x, d ≤ x → x < d + dirHeader → m' x = m x := fun x hx hlt => h x hx (by omega)
  have hrec := recLen_congr hheader
  have hname := nameLen_congr hheader
  refine ⟨⟨by rwa [hrec, hname], by rwa [hname, h _ (by omega) (by omega)]⟩, hrec, ?_⟩
  rw [recordAt, recName, hname, dirInode_congr hheader, fileType_congr hheader, strAt_congr fun x hx hlt => h x (by omega) (by omega)]
  rfl

theorem Tiles.congr (ht : Tiles m e d ds) (h : ∀ x, d ≤ x → x < e → m' x = m x) :
    Tiles m' e d ds ∧ ds.map (recordAt m') = ds.map (recordAt m) := by
  induction ds generalizing d with
  | nil => exact ⟨ht, rfl⟩
  | cons o ds ih =>
    obtain ⟨rfl, hok, hrest⟩ := ht
    have hle := hrest.le
    obtain ⟨hok', hrec, hentry⟩ := hok.congr fun x hx hlt => h x hx (by omega)
    obtain ⟨hrest', hmap⟩ := ih hrest fun x hx hlt => h x (by omega) hlt
    exact ⟨⟨rfl, hok', by rwa [hrec]⟩, by simp [hentry, hmap]⟩

/-! ## The walks -/

theorem strEq_iff_recName (hok : RecordOk m d) (hname : NoNul name) : strEq m (d + dirHeader) name = true ↔ recName m d = name :=
  strEq_iff hok.2 hname

/-- The search of a block finds the first record of the name. -/
theorem findRecord_eq (h : Tiles m bs d ds) (hd : d < bs) (hname : NoNul name) {fuel : Nat} (hfuel : bs ≤ d + fuel) :
    findRecord bs m name fuel d = .ok (ds.find? fun o => recName m o = name) := by
  induction fuel generalizing d ds with
  | zero => omega
  | succ fuel ih =>
    cases ds with
    | nil => exact absurd h (Nat.ne_of_lt hd)
    | cons o ds =>
      obtain ⟨rfl, hok, hrest⟩ := h
      have hpos := hok.recLen_pos
      rw [findRecord, find?_cons]
      by_cases hhit : recName m o = name
      · rw [if_pos ((strEq_iff_recName hok hname).mpr hhit), decide_eq_true hhit]
      · rw [if_neg fun hs => hhit ((strEq_iff_recName hok hname).mp hs), decide_eq_false hhit]
        by_cases hlast : bs ≤ o + recLen m o
        · rw [if_pos hlast, hrest.eq_nil hlast]
          rfl
        · rw [if_neg hlast]
          exact ih hrest (by omega) (by omega)

/-- Counting the records leads to the one with that number, or says how many are left to skip behind the block. -/
theorem nthRecord_eq (h : Tiles m bs d ds) (hd : d < bs) (skip : Nat) :
    Ext2.nthRecord bs m skip d = ds[skip]?.elim (.inr (skip - ds.length)) .inl := by
  induction skip generalizing d ds with
  | zero =>
    cases ds with
    | nil => exact absurd h (Nat.ne_of_lt hd)
    | cons o ds =>
      obtain ⟨rfl, -⟩ := h
      rfl
  | succ skip ih =>
    cases ds with
    | nil => exact absurd h (Nat.ne_of_lt hd)
    | cons o ds =>
      obtain ⟨rfl, -, hrest⟩ := h
      rw [Ext2.nthRecord, getElem?_cons_succ, length_cons, Nat.add_sub_add_right]
      by_cases hlast : bs ≤ o + recLen m o
      · rw [if_pos hlast, hrest.eq_nil hlast]
        rfl
      · rw [if_neg hlast, ih hrest (by omega)]

theorem lastRecord_eq (h : Tiles m bs d (ds ++ [e])) {fuel : Nat} (hfuel : bs ≤ d + fuel) : lastRecord bs m fuel d = .ok e := by
  induction fuel generalizing d ds with
  | zero =>
    obtain ⟨hok, hlo, hhi⟩ := h.mem (mem_append_right ds mem_cons_self)
    have := hok.recLen_pos
    omega
  | succ fuel ih =>
    cases ds with
    | nil =>
      obtain ⟨rfl, -, hend⟩ := h
      rw [lastRecord, if_pos (Nat.le_of_eq hend.symm)]
    | cons o ds =>
      obtain ⟨rfl, hok, hrest⟩ := h
      have hpos := hok.recLen_pos
      obtain ⟨hok', hlo, hhi⟩ := hrest.mem (mem_append_right ds mem_cons_self)
      have := hok'.recLen_pos
      rw [lastRecord, if_neg (by omega)]
      exact ih hrest (by omega)

theorem Tiled.congr (h : Tiled bs m) (hm : ∀ x, x < bs → m' x = m x) : Tiled bs m' ∧ blockRecords bs m' = blockRecords bs m := by
  obtain ⟨ht, hmap⟩ := Tiles.congr h fun x _ hlt => hm x hlt
  obtain ⟨htiled, hentries⟩ := ht.tiled
  exact ⟨htiled, hentries.trans hmap⟩

theorem Tiles.exists_last (h : Tiles m bs d ds) (hd : d < bs) : ∃ ds' o, ds = ds' ++ [o] := by
  rcases eq_nil_or_concat ds with rfl | ⟨ds', o, rfl⟩
  · exact absurd h (Nat.ne_of_lt hd)
  · exact ⟨ds', o, by rw [concat_eq_append]⟩

/-! ## A record of another length -/

theorem setRecLen_outside (m : Mem) (d v : Nat) (hx : x < d + 4 ∨ d + 6 ≤ x) : setRecLen m d v x = m x :=
  store_outside m v (by omega)

theorem RecordOk.setRecLen (hok : RecordOk m d) (hv : v < 2 ^ 16) (hroom : dirHeader + nameLen m d + 1 ≤ v) :
    RecordOk (setRecLen m d v) d ∧ recLen (setRecLen m d v) d = v ∧ recordAt (setRecLen m d v) d = recordAt m d := by
  have hlen : recLen (OmegaOS.setRecLen m d v) d = v := load_store_same m (d + 4) 2 (by omega)
  have hname : nameLen (OmegaOS.setRecLen m d v) d = nameLen m d := load_store_disjoint m v (by omega)
  have hino : dirInode (OmegaOS.setRecLen m d v) d = dirInode m d := load_store_disjoint m v (by omega)
  have hft : fileType (OmegaOS.setRecLen m d v) d = fileType m d := load_store_disjoint m v (by omega)
  refine ⟨⟨by rwa [hlen, hname], ?_⟩, hlen, ?_⟩
  · rw [hname, setRecLen_outside m d v (by unfold dirHeader; omega)]
    exact hok.2
  · rw [recordAt, recName, hname, hino, hft, strAt_congr fun x hx _ => setRecLen_outside m d v (by unfold dirHeader at hx; omega)]
    rfl

/-! ## A new record -/

variable {newIno size ft : Nat}

theorem writeRecord_outside (m : Mem) (d newIno : Nat) (name : Str) (size ft : Nat)
    (hx : x < d ∨ d + dirHeader + name.length < x) : writeRecord m d newIno name size ft x = m x := by
  unfold dirHeader at hx
  unfold writeRecord setRecLen dirHeader
  rw [store_outside _ _ (by omega), store_outside _ _ (by omega), store_outside _ _ (by omega), strcpy_outside _ _ (by omega),
    store_outside _ _ (by omega)]

theorem recLen_writeRecord (m : Mem) (d newIno : Nat) (name : Str) (ft : Nat) (hsize : size < 2 ^ 16) :
    recLen (writeRecord m d newIno name size ft) d = size := by
  unfold writeRecord setRecLen
  rw [recLen, load_store_disjoint _ _ (by omega), load_store_same _ _ _ hsize]

theorem nameLen_writeRecord (m : Mem) (d newIno : Nat) (size ft : Nat) (hname : name.length ≤ 255) :
    nameLen (writeRecord m d newIno name size ft) d = name.length := by
  unfold writeRecord setRecLen
  rw [nameLen, load_store_disjoint _ _ (by omega), load_store_disjoint _ _ (by omega), load_store_same _ _ _ (by omega)]

theorem dirInode_writeRecord (m : Mem) (d : Nat) (name : Str) (size ft : Nat) (hino : newIno < 2 ^ 32) :
    dirInode (writeRecord m d newIno name size ft) d = newIno := by
  unfold writeRecord setRecLen
  rw [dirInode, load_store_disjoint _ _ (by omega), load_store_disjoint _ _ (by omega), load_store_disjoint _ _ (by omega),
    load_congr fun x hx hlt => strcpy_outside _ _ (by unfold dirHeader; omega), load_store_same _ _ _ hino]

theorem writeRecord_name (m : Mem) (d newIno : Nat) (name : Str) (size ft : Nat) (hi : i ≤ name.length) :
    writeRecord m d newIno name size ft (d + dirHeader + i) = name.getD i 0 := by
  unfold writeRecord setRecLen dirHeader
  rw [store_outside _ _ (by omega), store_outside _ _ (by omega), store_outside _ _ (by omega), strcpy_inside _ _ _ hi]

theorem fileType_writeRecord (m : Mem) (d newIno : Nat) (name : Str) (size ft : Nat) :
    fileType (writeRecord m d newIno name size ft) d = ft % 256 := by
  have hpart := load_store_part (setRecLen (store (strcpy (store m d 4 newIno) (d + dirHeader) name) (d + 6) 1 name.length) d size)
    (d + 7) 1 ft (k := 1) .refl
  rwa [add_zero, Nat.pow_zero, Nat.div_one, Nat.pow_one] at hpart

/-- The new record is one, with the name, the inode and the file type it was written for. -/
theorem writeRecord_ok (m : Mem) (d : Nat) (ft : Nat) (hno : NoNul name) (hname : name.length ≤ 255) (hino : newIno < 2 ^ 32)
    (hsize : size < 2 ^ 16) (hroom : dirHeader + name.length + 1 ≤ size) :
    RecordOk (writeRecord m d newIno name size ft) d ∧ recLen (writeRecord m d newIno name size ft) d = size ∧
      recordAt (writeRecord m d newIno name size ft) d = (name, newIno, ft % 256) := by
  have hrec := recLen_writeRecord m d newIno name ft hsize
  have hlen := nameLen_writeRecord m d newIno size ft hname
  refine ⟨⟨by rwa [hrec, hlen], ?_⟩, hrec, ?_⟩
  · rw [hlen, writeRecord_name _ _ _ _ _ _ .refl]
    simp
  · rw [recordAt, recName, hlen, dirInode_writeRecord m d name size ft hino, fileType_writeRecord]
    rw [strAt_eq hno .refl fun i hi => writeRecord_name m d newIno name size ft hi]

theorem tiles_single (m : Mem) (ft : Nat) (hno : NoNul name) (hname : name.length ≤ 255) (hino : newIno < 2 ^ 32) (hsize : bs < 2 ^ 16)
    (hroom : dirHeader + name.length + 1 ≤ bs) : Tiles (writeRecord m 0 newIno name bs ft) bs 0 [0] ∧
      [0].map (recordAt (writeRecord m 0 newIno name bs ft)) = [(name, newIno, ft % 256)] := by
  obtain ⟨hok, hrec, hentry⟩ := writeRecord_ok m 0 ft hno hname hino hsize hroom
  exact ⟨⟨rfl, hok, by rw [hrec, zero_add]; rfl⟩, by rw [map_singleton, hentry]⟩

theorem getDirEntrySize_bounds (nl : Nat) : dirHeader + nl + 2 ≤ getDirEntrySize nl ∧ getDirEntrySize nl ≤ dirHeader + nl + 3 := by
  unfold getDirEntrySize
  dsimp only
  split <;> omega

/-- The last record is shortened and a new one is put behind it. -/
theorem tiles_split (h : Tiles m bs 0 (ds ++ [d])) (hbs : bs < 2 ^ 16) (ft : Nat) (hno : NoNul name) (hname : name.length ≤ 255)
    (hino : newIno < 2 ^ 32) {cur : Nat} (hcur : cur = getDirEntrySize (nameLen m d))
    (hroom : cur + getDirEntrySize name.length ≤ recLen m d)
    (hm' : m' = writeRecord (setRecLen m d cur) (d + cur) newIno name (recLen m d - cur) ft) : Tiles m' bs 0 (ds ++ [d, d + cur]) ∧
      (ds ++ [d, d + cur]).map (recordAt m') = (ds ++ [d]).map (recordAt m) ++ [(name, newIno, ft % 256)] := by
  obtain ⟨_, hds, rfl, hok, hend⟩ := tiles_append.mp h
  replace hend : d + recLen m d = bs := hend
  obtain ⟨hlo, hhi⟩ := getDirEntrySize_bounds (nameLen m d)
  obtain ⟨hlo', -⟩ := getDirEntrySize_bounds name.length
  unfold dirHeader at hlo hhi hlo'
  -- below the new record only the length of the last one changes
  obtain ⟨hokc, hlenc, hrecc⟩ := hok.setRecLen (v := cur) (by omega) (by unfold dirHeader; omega)
  obtain ⟨hokl, hlenl, hrecl⟩ := hokc.congr fun x hx hlt => show m' x = setRecLen m d cur x by
    rw [hm', writeRecord_outside _ _ _ _ _ _ (.inl (by omega))]
  rw [hlenc] at hlenl
  obtain ⟨hnew, hnewLen, hentryNew⟩ := writeRecord_ok (setRecLen m d cur) (d + cur) ft hno hname hino
    (by omega) (show dirHeader + name.length + 1 ≤ recLen m d - cur by unfold dirHeader; omega)
  rw [← hm'] at hnew hnewLen hentryNew
  obtain ⟨hds', hmap⟩ := hds.congr fun x hx hlt => show m' x = m x by
    rw [hm', writeRecord_outside _ _ _ _ _ _ (.inl (by omega)), setRecLen_outside m d cur (by omega)]
  refine ⟨tiles_append.mpr ⟨d, hds', rfl, hokl, ?_⟩, ?_⟩
  · rw [hlenl]
    exact ⟨rfl, hnew, by rw [hnewLen]; show d + cur + (recLen m d - cur) = bs; omega⟩
  · rw [map_append, map_append, hmap]
    simp [hrecl, hrecc, hentryNew]

end OmegaOS
