import Mathlib.Algebra.GroupWithZero.Nat
import OmegaOS.Lemmas.Ext2Records

/-!
# Removing a record from a directory block

What `deleteInodeFromDir` makes of a block that is tiled by records: the records behind the removed one move down, and another record is
lengthened to fill the block. The walk that looks for it counts from a wrong start and may stop too early.
-/

namespace OmegaOS

open ByteMem CStr List

variable {m m' : Mem} {bs c d e o len fuel x : Nat} {ds ds1 ds2 pre post : List Nat} {name : Str}

/-! ## Records that move -/

/-- The memory from `len` on. -/
def shifted (len : Nat) (m : Mem) : Mem := fun x => m (len + x)

@[simp] theorem recLen_shifted (len : Nat) (m : Mem) (d : Nat) : recLen (shifted len m) d = recLen m (len + d) := by
  unfold recLen shifted
  rw [load_shift, add_assoc]

@[simp] theorem nameLen_shifted (len : Nat) (m : Mem) (d : Nat) : nameLen (shifted len m) d = nameLen m (len + d) := by
  unfold nameLen shifted
  rw [load_shift, add_assoc]

@[simp] theorem recordAt_shifted (len : Nat) (m : Mem) (d : Nat) : recordAt (shifted len m) d = recordAt m (len + d) := by
  rw [recordAt, recordAt, recName, recName, nameLen_shifted]
  unfold dirInode fileType shifted
  rw [strAt_shift, load_shift, load_shift, add_assoc, add_assoc]

theorem recordOk_shifted : RecordOk (shifted len m) d ↔ RecordOk m (len + d) := by
  rw [RecordOk, RecordOk, nameLen_shifted, recLen_shifted, shifted, ← add_assoc, ← add_assoc]

theorem tiles_shifted : Tiles (shifted len m) e d ds ↔ Tiles m (len + e) (len + d) (ds.map (len + ·)) := by
  induction ds generalizing d with
  | nil => exact ⟨fun h => congrArg (len + ·) h, fun h => Nat.add_left_cancel h⟩
  | cons o ds ih =>
    rw [map_cons, Tiles, Tiles, ih, recordOk_shifted, recLen_shifted, Nat.add_left_cancel_iff, add_assoc]

/-- Records behind `len` are records of the memory from `len` on. -/
theorem Tiles.exists_shifted (h : Tiles m (len + e) (len + d) ds) : ∃ es, ds = es.map (len + ·) ∧ Tiles (shifted len m) e d es := by
  have hmap : ds = (ds.map (· - len)).map (len + ·) := by
    rw [map_map]
    refine (map_id ds).symm.trans (map_congr_left fun x hx => ?_)
    have := (h.mem hx).2.1
    show x = len + (x - len)
    omega
  exact ⟨_, hmap, tiles_shifted.mpr (hmap ▸ h)⟩

/-! ## Lengths -/

theorem Tiles.sum (h : Tiles m e d ds) : d + (ds.map (recLen m)).sum = e := by
  induction ds generalizing d with
  | nil => exact h
  | cons o ds ih =>
    obtain ⟨rfl, -, hrest⟩ := h
    rw [map_cons, sum_cons, ← add_assoc]
    exact ih hrest

theorem Tiles.map_recLen_congr (h : Tiles m e d ds) (hm : ∀ x, d ≤ x → x < e → m' x = m x) : ds.map (recLen m') = ds.map (recLen m) := by
  refine map_congr_left fun o ho => recLen_congr fun x hx hlt => ?_
  obtain ⟨hok, hlo, hhi⟩ := h.mem ho
  have := hok.recLen_pos
  exact hm x (by omega) (by omega)

/-- How much follows the first record that at most `d` bytes follow, for records of the given lengths. -/
def restBehind (d : Nat) : List Nat → Nat
  | [] => 0
  | _ :: ls => if ls.sum ≤ d then ls.sum else restBehind d ls

/-- The second walk of `deleteInodeFromDir` stops at the first record that at most `d` bytes follow. -/
theorem findShifted_eq (h : Tiles m e c ds) (hc : c < e) (hfuel : e ≤ c + fuel) (d len : Nat) :
    ∃ ds1 o ds2, ds = ds1 ++ o :: ds2 ∧ Ext2.findShifted (len + e) m fuel (c + (d + len)) c = .ok o ∧
      (ds2.map (recLen m)).sum = restBehind d (ds.map (recLen m)) := by
  induction fuel generalizing c ds with
  | zero => omega
  | succ fuel ih =>
    cases ds with
    | nil => exact absurd h (Nat.ne_of_lt hc)
    | cons o ds =>
      obtain ⟨rfl, hok, hrest⟩ := h
      have hpos := hok.recLen_pos
      have hsum := hrest.sum
      rw [Ext2.findShifted, map_cons, restBehind]
      by_cases hstop : (ds.map (recLen m)).sum ≤ d
      · rw [if_pos (by omega), if_pos hstop]
        exact ⟨[], o, ds, rfl, rfl, rfl⟩
      · rw [if_neg (by omega), if_neg hstop, Nat.add_right_comm]
        obtain ⟨ds1, o', ds2, rfl, hfind, hrestBehind⟩ := ih hrest (by omega) (by omega)
        exact ⟨o :: ds1, o', ds2, rfl, hfind, hrestBehind⟩

/-! ## The block after the removal -/

/-- A record is lengthened over what follows it. -/
theorem tiles_lengthen (h : Tiles m e c (ds1 ++ o :: ds2)) (hlen : recLen m o + len < 2 ^ 16) :
    Tiles (setRecLen m o (recLen m o + len)) (o + recLen m o + len) c (ds1 ++ [o]) ∧
      (ds1 ++ [o]).map (recordAt (setRecLen m o (recLen m o + len))) = (ds1 ++ [o]).map (recordAt m) := by
  obtain ⟨_, hds, rfl, hok, -⟩ := tiles_append.mp h
  obtain ⟨hok', hlen', hrecord⟩ := hok.setRecLen hlen (Nat.le_trans hok.1 (Nat.le_add_right ..))
  obtain ⟨hds', hmap⟩ := hds.congr fun x _ hlt => setRecLen_outside m o (recLen m o + len) (.inl (Nat.lt_add_right 4 hlt))
  refine ⟨tiles_append.mpr ⟨o, hds', rfl, hok', ?_⟩, ?_⟩
  · rw [hlen', ← add_assoc]
    rfl
  · simp [hmap, hrecord]

/-- The block after `memmove`: the bytes behind the record at `d` have moved down to it. -/
def removed (bs : Nat) (m : Mem) (d : Nat) : Mem := copy m d m (d + recLen m d) (bs - recLen m d - d)

/-- Where a byte of the block comes from, when `len` bytes at `d` are removed. -/
def source (bs d len x : Nat) : Nat := if d ≤ x ∧ x < bs - len then len + x else x

theorem removed_apply (hd : d + recLen m d ≤ bs) (x : Nat) : removed bs m d x = m (source bs d (recLen m d) x) := by
  unfold removed source
  by_cases hx : d ≤ x ∧ x < bs - recLen m d
  · rw [if_pos hx, copy_inside _ _ _ hx.1 (by omega)]
    congr 1
    omega
  · rw [if_neg hx, copy_outside _ _ _ (by omega)]

/-- The records without the one that was taken out. -/
theorem tiles_removed (h : Tiles m bs 0 (pre ++ d :: post)) :
    ∃ es, post = es.map (recLen m d + ·) ∧ Tiles (removed bs m d) d 0 pre ∧ Tiles (removed bs m d) (bs - recLen m d) d es ∧
      (pre ++ es).map (recordAt (removed bs m d)) = (pre ++ post).map (recordAt m) ∧
      (pre ++ es).map (recLen (removed bs m d)) = (pre ++ post).map (recLen m) := by
  obtain ⟨_, hpre, rfl, hok, hpost⟩ := tiles_append.mp h
  have hle := hpost.le
  obtain ⟨len, hlen⟩ : ∃ len, recLen m d = len := ⟨_, rfl⟩
  rw [hlen] at hpost hle ⊢
  have hmove : Tiles m (len + (bs - len)) (len + d) post := by
    rwa [Nat.add_sub_cancel' (by omega), add_comm]
  obtain ⟨es, rfl, hes⟩ := hmove.exists_shifted
  have hlow : ∀ x, 0 ≤ x → x < d → removed bs m d x = m x := fun x _ hx => by
    rw [removed_apply (by omega), source, if_neg (by omega)]
  have hhigh : ∀ x, d ≤ x → x < bs - len → removed bs m d x = shifted len m x := fun x hx hlt => by
    rw [removed_apply (by omega), hlen, source, if_pos ⟨hx, hlt⟩, shifted]
  obtain ⟨hpre', hprem⟩ := hpre.congr hlow
  obtain ⟨hes', hesm⟩ := hes.congr hhigh
  refine ⟨es, rfl, hpre', hes', ?_, ?_⟩
  · rw [map_append, map_append, hprem, hesm, map_map]
    simp
  · rw [map_append, map_append, hpre.map_recLen_congr hlow, hes.map_recLen_congr hhigh, map_map]
    simp

/-- Behind records that end before the block does there is another record. -/
theorem Tiles.recordsFrom_append (h : Tiles m e d ds) (he : e < bs) (hfuel : e < d + fuel) :
    ∃ rest, recordsFrom bs m fuel d = ds ++ e :: rest := by
  induction ds generalizing d fuel with
  | nil =>
    obtain rfl : d = e := h
    obtain ⟨fuel, rfl⟩ := Nat.exists_eq_add_one_of_ne_zero (show fuel ≠ 0 by omega)
    rw [recordsFrom, if_neg (by omega)]
    exact ⟨_, rfl⟩
  | cons o ds ih =>
    obtain ⟨rfl, hok, hrest⟩ := h
    have hpos := hok.recLen_pos
    have hle := hrest.le
    obtain ⟨fuel, rfl⟩ := Nat.exists_eq_add_one_of_ne_zero (show fuel ≠ 0 by omega)
    obtain ⟨rest, heq⟩ := ih hrest (show e < o + recLen m o + fuel by omega)
    rw [recordsFrom, if_neg (by omega), heq]
    exact ⟨rest, rfl⟩

theorem map_entryAt (m : Mem) (ds : List Nat) : ds.map (entryAt m) = (ds.map (recordAt m)).map untyped := by
  rw [map_map]
  rfl

/-- The block after the removal of a record that others follow, when the second walk stops at `o`. -/
def closed (bs : Nat) (m : Mem) (d o : Nat) : Mem := setRecLen (removed bs m d) o (recLen (removed bs m d) o + recLen m d)

/-- What the removal of a record that others follow does. `rest` is what lies behind the record that is lengthened. -/
structure MiddleRemoved (bs : Nat) (m : Mem) (d : Nat) (pre post : List Nat) (o rest : Nat) : Prop where
  walk : Ext2.findShifted bs (removed bs m d) bs (d + recLen m d) 0 = .ok o
  bound : rest ≤ bs - recLen m d
  right : rest ≤ recLen m d → rest ≤ bs - d - recLen m d →
    Tiled bs (closed bs m d o) ∧ blockEntries bs (closed bs m d o) = (pre ++ post).map (entryAt m)
  next : 0 < rest → source bs d (recLen m d) (bs - recLen m d - rest) ∈ pre ++ post
  needs : 0 < rest → blockEntries bs (closed bs m d o) = (pre ++ post).map (entryAt m) →
    m (source bs d (recLen m d) (bs - rest)) = m (source bs d (recLen m d) (bs - recLen m d - rest))

/-- The block around the record `o` that is lengthened: `ds1` lie before it and `ds2`, of `rest` bytes, behind it. -/
structure MiddleLayout (bs : Nat) (m : Mem) (d : Nat) (pre post ds1 : List Nat) (o : Nat) (ds2 : List Nat) (rest : Nat) : Prop where
  walk : Ext2.findShifted bs (removed bs m d) bs (d + recLen m d) 0 = .ok o
  head : Tiles (closed bs m d o) (o + recLen (removed bs m d) o + recLen m d) 0 (ds1 ++ [o])
  headRecords : (ds1 ++ [o]).map (recordAt (closed bs m d o)) = (ds1 ++ [o]).map (recordAt (removed bs m d))
  record : dirHeader < recLen (removed bs m d) o
  tail : Tiles (removed bs m d) (bs - recLen m d) (o + recLen (removed bs m d) o) ds2
  sum : o + recLen (removed bs m d) o + rest = bs - recLen m d
  entries : (pre ++ post).map (entryAt m) = (ds1 ++ [o]).map (entryAt (removed bs m d)) ++ ds2.map (entryAt (removed bs m d))
  sources : ∀ x ∈ ds2, source bs d (recLen m d) x ∈ pre ++ post

/-- A record of the moved block was one of the block before. -/
theorem source_mem {es : List Nat} (hpre : Tiles (removed bs m d) d 0 pre)
    (hes : Tiles (removed bs m d) (bs - recLen m d) d es) (hx : x ∈ pre ++ es) :
    source bs d (recLen m d) x ∈ pre ++ es.map (recLen m d + ·) := by
  rw [mem_append] at hx ⊢
  rcases hx with hin | hin
  · obtain ⟨hok, -, hle⟩ := hpre.mem hin
    have := hok.recLen_pos
    rw [source, if_neg (by omega)]
    exact .inl hin
  · obtain ⟨hok, hle, hend⟩ := hes.mem hin
    have := hok.recLen_pos
    rw [source, if_pos (by omega)]
    exact .inr (mem_map_of_mem hin)

theorem exists_middleLayout (h : Tiles m bs 0 (pre ++ d :: post)) (hbs : bs < 2 ^ 16) (hd : d + recLen m d < bs) :
    ∃ ds1 o ds2, MiddleLayout bs m d pre post ds1 o ds2 (restBehind d ((pre ++ post).map (recLen m))) := by
  obtain ⟨es, rfl, hpre, hes, hrecords, hlens⟩ := tiles_removed h
  have htiles := tiles_append.mpr ⟨d, hpre, hes⟩
  obtain ⟨ds1, o, ds2, hsplit, hwalk, hrest⟩ := findShifted_eq htiles (by omega) (show bs - recLen m d ≤ 0 + bs by omega) d (recLen m d)
  rw [hlens] at hrest
  rw [Nat.add_sub_cancel' (by omega), zero_add] at hwalk
  have hsources : ∀ x ∈ ds2, source bs d (recLen m d) x ∈ pre ++ es.map (recLen m d + ·) := by
    intro x hx
    refine source_mem hpre hes ?_
    rw [hsplit]
    exact mem_append_right _ (.tail o hx)
  rw [hsplit] at htiles hrecords
  obtain ⟨_, -, rfl, hoko, htail⟩ := tiles_append.mp htiles
  have hsum := htail.sum
  obtain ⟨hhead, hheadm⟩ := tiles_lengthen htiles (show recLen (removed bs m d) o + recLen m d < 2 ^ 16 by omega)
  refine ⟨ds1, o, ds2, hwalk, hhead, hheadm, hoko.recLen_pos, htail, by rwa [← hrest], ?_, hsources⟩
  rw [map_entryAt m, ← hrecords, ← map_entryAt, append_cons, map_append]

section

variable {rest : Nat} (h : MiddleLayout bs m d pre post ds1 o ds2 rest)
include h

/-- When something follows the lengthened record, its first record lies where the moved one ends. -/
theorem MiddleLayout.next (h0 : 0 < rest) : ∃ ds3, ds2 = (bs - recLen m d - rest) :: ds3 := by
  have hsum := h.sum
  cases ds2 with
  | nil =>
    have hend : o + recLen (removed bs m d) o = bs - recLen m d := h.tail
    omega
  | cons f ds3 =>
    obtain ⟨rfl, -⟩ := h.tail
    exact ⟨ds3, by rw [show bs - recLen m d - rest = o + recLen (removed bs m d) o by omega]⟩

/-- Behind the lengthened record only the move has changed anything. -/
theorem MiddleLayout.closed_apply (hx : o + recLen (removed bs m d) o ≤ x) : closed bs m d o x = removed bs m d x := by
  have := h.record
  unfold dirHeader at this
  exact setRecLen_outside _ _ _ (.inr (by omega))

/-- Where the rest fits into the removed record and behind it, the walk finds there what was there before the move. -/
theorem MiddleLayout.tiled (hd : d + recLen m d < bs) (hle : rest ≤ recLen m d) (hle' : rest ≤ bs - d - recLen m d) :
    Tiled bs (closed bs m d o) ∧ blockEntries bs (closed bs m d o) = (pre ++ post).map (entryAt m) := by
  have hsum := h.sum
  obtain ⟨htail, htailm⟩ := h.tail.congr fun x hx hlt => show shifted (recLen m d) (closed bs m d o) x = removed bs m d x by
    rw [shifted, h.closed_apply (by omega), removed_apply (by omega), removed_apply (by omega), source, if_neg (by omega), source,
      if_pos (by omega)]
  rw [tiles_shifted, Nat.add_sub_cancel' (by omega), add_comm] at htail
  obtain ⟨htiled, hall⟩ := (tiles_append.mpr ⟨_, h.head, htail⟩).tiled
  have htaile : (ds2.map (recLen m d + ·)).map (recordAt (closed bs m d o)) = ds2.map (recordAt (removed bs m d)) := by
    rw [← htailm, map_map]
    simp
  refine ⟨htiled, ?_⟩
  rw [blockEntries_eq, hall, map_append, h.headRecords, htaile, map_append, ← map_entryAt, ← map_entryAt, h.entries]

/-- Otherwise the entry behind the lengthened record is read from where the walk goes on, and is to be that of the next record. -/
theorem MiddleLayout.needs (hd : d + recLen m d < bs) (h0 : 0 < rest)
    (heq : blockEntries bs (closed bs m d o) = (pre ++ post).map (entryAt m)) :
    m (source bs d (recLen m d) (bs - rest)) = m (source bs d (recLen m d) (bs - recLen m d - rest)) := by
  have hsum := h.sum
  obtain ⟨ds3, rfl⟩ := h.next h0
  obtain ⟨later, hfrom⟩ := h.head.recordsFrom_append (show o + recLen (removed bs m d) o + recLen m d < bs by omega)
    (show o + recLen (removed bs m d) o + recLen m d < 0 + bs by omega)
  rw [show o + recLen (removed bs m d) o + recLen m d = bs - rest by omega] at hfrom
  have hentry : entryAt (closed bs m d o) (bs - rest) = entryAt (removed bs m d) (bs - recLen m d - rest) := by
    rw [h.entries, blockEntries, hfrom, map_append] at heq
    exact (cons.inj (append_inj heq (by simp)).2).1
  have hbyte : closed bs m d o (bs - rest) = removed bs m d (bs - recLen m d - rest) := byte_eq_of_load_eq (congrArg Prod.snd hentry)
  rwa [h.closed_apply (by omega), removed_apply (by omega), removed_apply (by omega)] at hbyte

end

theorem removeMiddle (h : Tiles m bs 0 (pre ++ d :: post)) (hbs : bs < 2 ^ 16) (hd : d + recLen m d < bs) :
    ∃ o, MiddleRemoved bs m d pre post o (restBehind d ((pre ++ post).map (recLen m))) := by
  obtain ⟨ds1, o, ds2, hl⟩ := exists_middleLayout h hbs hd
  refine ⟨o, hl.walk, by rw [← hl.sum]; omega, hl.tiled hd, fun h0 => ?_, hl.needs hd⟩
  obtain ⟨ds3, hds⟩ := hl.next h0
  exact hl.sources _ (by rw [hds]; exact mem_cons_self)

/-- The two bytes have different sources unless the rest fits behind the removed record and into its length. -/
theorem source_ne {rest : Nat} (hlen : 0 < len) (hd : d + len < bs) (hbound : rest ≤ bs - len) (h0 : 0 < rest)
    (hnot : ¬ (rest ≤ len ∧ rest ≤ bs - d - len)) : source bs d len (bs - rest) ≠ source bs d len (bs - len - rest) := by
  unfold source
  split <;> split <;> omega

/-- The last record is removed: the one before it gets its bytes. -/
theorem removeLast (h : Tiles m bs 0 (pre ++ [o, d])) (hbs : bs < 2 ^ 16) : Tiled bs (setRecLen m o (recLen m o + recLen m d)) ∧
      blockEntries bs (setRecLen m o (recLen m o + recLen m d)) = (pre ++ [o]).map (entryAt m) := by
  obtain ⟨_, -, rfl, -, rfl, -, hend⟩ := tiles_append.mp h
  have hlen : recLen m o + recLen m (o + recLen m o) < 2 ^ 16 := by
    have : o + recLen m o + recLen m (o + recLen m o) = bs := hend
    omega
  obtain ⟨htiles, hmap⟩ := tiles_lengthen h hlen
  rw [show o + recLen m o + recLen m (o + recLen m o) = bs from hend] at htiles
  obtain ⟨htiled, hrecords⟩ := htiles.tiled
  exact ⟨htiled, by rw [blockEntries_eq, hrecords, hmap, map_entryAt]⟩

/-! ## A removal leaves a trace -/

theorem recLen_setRecLen (m : Mem) (d v : Nat) : recLen (setRecLen m d v) d = v % 65536 := by
  have hpart := load_store_part m (d + 4) 2 v (k := 2) .refl
  rwa [add_zero, Nat.pow_zero, Nat.div_one] at hpart

/-- A record that is lengthened is not what it was. -/
theorem setRecLen_changes (hlen : 0 < len) (hlt : len < 65536) (m : Mem) (o : Nat) :
    recLen (setRecLen m o (recLen m o + len)) o ≠ recLen m o := by
  rw [recLen_setRecLen]
  omega

theorem removeLast_changes (h : Tiles m bs 0 (pre ++ [o, d])) : ¬ ∀ x < bs, setRecLen m o (recLen m o + recLen m d) x = m x := by
  obtain ⟨_, -, rfl, hok, rfl, hokd, hend⟩ := tiles_append.mp h
  replace hend : o + recLen m o + recLen m (o + recLen m o) = bs := hend
  have hpos := hok.recLen_pos
  have hposd := hokd.recLen_pos
  intro hsame
  exact setRecLen_changes (Nat.zero_lt_of_lt hposd) (load_lt m _ 2) m o (recLen_congr fun x _ hlt => hsame x (by omega))

/-- The removal of a record changes the block. -/
theorem removeMiddle_changes (h : Tiles m bs 0 (pre ++ d :: post)) (hd : d + recLen m d < bs)
    (hother : ∀ p ∈ post, recName m p ≠ recName m d) :
    ∃ o, Ext2.findShifted bs (removed bs m d) bs (d + recLen m d) 0 = .ok o ∧ ¬ ∀ x < bs, closed bs m d o x = m x := by
  obtain ⟨es, rfl, hpre, hes, hrecords, -⟩ := tiles_removed h
  obtain ⟨_, hpre', rfl, hok, -⟩ := tiles_append.mp h
  have hpos := hok.recLen_pos
  obtain ⟨ds1, o, ds2, hsplit, hwalk, -⟩ := findShifted_eq (tiles_append.mpr ⟨d, hpre, hes⟩) (by omega)
    (show bs - recLen m d ≤ 0 + bs by omega) d (recLen m d)
  rw [Nat.add_sub_cancel' (by omega), zero_add] at hwalk
  have ho : o ∈ pre ++ es := by
    rw [hsplit]
    simp
  refine ⟨o, hwalk, fun hsame => ?_⟩
  rcases mem_append.mp ho with hin | hin
  · -- a record before it is lengthened
    obtain ⟨hoko, -, hle⟩ := hpre'.mem hin
    have hposo := hoko.recLen_pos
    have hlen : recLen (removed bs m d) o = recLen m o :=
      recLen_congr fun x _ hlt => by rw [removed_apply (by omega), source, if_neg (by omega)]
    have hkept : recLen (closed bs m d o) o = recLen m o := recLen_congr fun x _ hlt => hsame x (by omega)
    rw [← hlen] at hkept
    exact setRecLen_changes (Nat.zero_lt_of_lt hpos) (load_lt m _ 2) (removed bs m d) o hkept
  · -- the record in its place has another name
    cases es with
    | nil => cases hin
    | cons p es =>
      obtain ⟨rfl, hokp, hrest⟩ := hes
      have hafter : o = p ∨ p + recLen (removed bs m p) p ≤ o := by
        rcases mem_cons.mp hin with rfl | hin
        · exact .inl rfl
        · exact .inr (hrest.mem hin).2.1
      have hroom := hokp.1
      have hnl : nameLen (closed bs m p o) p = nameLen (removed bs m p) p := load_store_disjoint _ _ (by unfold dirHeader at hroom; omega)
      have hbytes : ∀ x, p + dirHeader ≤ x → x < p + dirHeader + nameLen (removed bs m p) p → closed bs m p o x = removed bs m p x :=
        fun x hx hlt => setRecLen_outside _ _ _ (by unfold dirHeader at *; omega)
      have hname : recName (closed bs m p o) p = recName (removed bs m p) p := by
        rw [recName, hnl, strAt_congr hbytes]
        rfl
      have hrecord : recordAt (removed bs m p) p = recordAt m (recLen m p + p) := by
        rw [map_append, map_append, map_cons, map_cons, map_cons] at hrecords
        exact (cons.inj (append_inj hrecords (by simp)).2).1
      have hmoved : recName (removed bs m p) p = recName m (recLen m p + p) := congrArg Prod.fst hrecord
      have hkept : recName (closed bs m p o) p = recName m p := congrArg Prod.fst (hok.congr fun x _ hlt => hsame x (by omega)).2.2
      exact hother _ (mem_map_of_mem mem_cons_self) (by rw [← hmoved, ← hname, hkept])

/-! ## The search -/

theorem findWithPrev_none (h : Tiles m bs d ds) (hd : d < bs) (hname : NoNul name) (hfuel : bs ≤ d + fuel)
    (hnot : ∀ o ∈ ds, recName m o ≠ name) (prev : Option Nat) : Ext2.findWithPrev bs m name fuel prev d = .ok none := by
  induction fuel generalizing d ds prev with
  | zero => omega
  | succ fuel ih =>
    cases ds with
    | nil => exact absurd h (Nat.ne_of_lt hd)
    | cons o ds =>
      obtain ⟨rfl, hok, hrest⟩ := h
      have hpos := hok.recLen_pos
      rw [Ext2.findWithPrev, if_neg fun hs => hnot o mem_cons_self ((strEq_iff_recName hok hname).mp hs)]
      by_cases hlast : bs ≤ o + recLen m o
      · rw [if_pos hlast]
      · rw [if_neg hlast]
        exact ih hrest (by omega) (by omega) (fun x hx => hnot x (.tail o hx)) (some o)

/-- The search of `deleteInodeFromDir` finds the first record of the name, and the one before it. -/
theorem findWithPrev_some (h : Tiles m bs c (pre ++ d :: post)) (hname : NoNul name) (hfuel : bs ≤ c + fuel)
    (hnot : ∀ o ∈ pre, recName m o ≠ name) (hhit : recName m d = name) (prev : Option Nat) :
    Ext2.findWithPrev bs m name fuel prev c = .ok (some (pre.getLast?.or prev, d)) := by
  obtain ⟨hokd, hlo, hhi⟩ := h.mem (mem_append_right pre mem_cons_self)
  have hposd := hokd.recLen_pos
  induction fuel generalizing c pre prev with
  | zero => omega
  | succ fuel ih =>
    cases pre with
    | nil =>
      obtain ⟨rfl, -⟩ := h
      rw [Ext2.findWithPrev, if_pos ((strEq_iff_recName hokd hname).mpr hhit)]
      rfl
    | cons o pre =>
      obtain ⟨rfl, hok, hrest⟩ := h
      have hpos := hok.recLen_pos
      have hlo' := (hrest.mem (mem_append_right pre mem_cons_self)).2.1
      rw [Ext2.findWithPrev, if_neg fun hs => hnot o mem_cons_self ((strEq_iff_recName hok hname).mp hs), if_neg (by omega),
        ih hrest (by omega) (fun x hx => hnot x (.tail o hx)) (some o) hlo', getLast?_cons]
      cases pre.getLast? <;> rfl

/-! ## Other inode numbers -/

/-- Records whose inode numbers may have changed, and nothing else. -/
theorem Tiles.relabelled (h : Tiles m e d ds) (hm : ∀ x, d ≤ x → x < e → (∀ o ∈ ds, x < o ∨ o + 4 ≤ x) → m' x = m x) :
    Tiles m' e d ds ∧ ds.map (recLen m') = ds.map (recLen m) ∧ ds.map (recName m') = ds.map (recName m) := by
  induction ds generalizing d with
  | nil => exact ⟨h, rfl, rfl⟩
  | cons o ds ih =>
    obtain ⟨rfl, hok, hrest⟩ := h
    have hle := hrest.le
    have hlow : ∀ x ∈ ds, o + recLen m o ≤ x := fun x hx => (hrest.mem hx).2.1
    have hsame : ∀ x, o + 4 ≤ x → x < o + recLen m o → m' x = m x := by
      intro x hx hlt
      refine hm x (by omega) (by omega) fun y hy => ?_
      rcases mem_cons.mp hy with rfl | hy
      · exact .inr hx
      · exact Or.inl (Nat.lt_of_lt_of_le hlt (hlow y hy))
    obtain ⟨hlen, hnul⟩ := hok
    unfold dirHeader at hlen hnul
    have hrec : recLen m' o = recLen m o := load_congr fun x hx hlt => hsame x (by omega) (by omega)
    have hnl : nameLen m' o = nameLen m o := load_congr fun x hx hlt => hsame x (by omega) (by omega)
    have hstr : recName m' o = recName m o := by
      rw [recName, hnl, strAt_congr fun x hx hlt => hsame x (by unfold dirHeader at hx; omega) (by unfold dirHeader at hlt; omega)]
      rfl
    obtain ⟨hrest', hlens, hnames⟩ := ih hrest fun x hx hlt hx' => hm x (by omega) hlt fun y hy => by
      rcases mem_cons.mp hy with rfl | hy
      · exact .inr (by omega)
      · exact hx' y hy
    refine ⟨⟨rfl, ⟨by rwa [hrec, hnl], ?_⟩, by rwa [hrec]⟩, ?_, ?_⟩
    · rwa [hnl, hsame _ (by unfold dirHeader; omega) (by unfold dirHeader; omega)]
    · simp [hrec, hlens]
    · simp [hstr, hnames]

end OmegaOS
