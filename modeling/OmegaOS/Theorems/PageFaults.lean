import OmegaOS.PageFault
import OmegaOS.Theorems.AddressSpaces

/-!
# What a handled page fault leaves

The handler rounds the faulting address with a macro that rounds up, so that the page it maps is the faulting one only when the fault is
at the first byte of a page.
-/

namespace OmegaOS

open X86 Radix

/-- The faulting page is mapped to the frame, and no other page of the address space has changed. -/
structure FaultResolved (pg pg' : Paging) (pml4 frame : Nat) (virtAddr : PageWord) : Prop where
  mapped : translate pg' pml4 virtAddr = some frame
  others : ∀ v, pageOf v ≠ pageOf virtAddr → translate pg' pml4 v = translate pg pml4 v

/-- The address that the handler maps. -/
def roundedFault (virtAddr : PageWord) : PageWord := BitVec.ofNat 64 (rndwn virtAddr.toNat pageSize)

theorem roundedFault_aligned (virtAddr : PageWord) : (roundedFault virtAddr).toNat % pageSize = 0 := by
  rw [roundedFault, BitVec.toNat_ofNat]
  unfold rndwn pageSize
  omega

/-- A fault inside a page is rounded to the next page. -/
theorem pageOf_roundedFault {virtAddr : PageWord} (h : virtAddr.toNat % pageSize ≠ 0) :
    pageOf (roundedFault virtAddr) ≠ pageOf virtAddr := by
  intro he
  have hpage := congrArg BitVec.toNat he
  rw [pageOf_toNat, pageOf_toNat, roundedFault, BitVec.toNat_ofNat] at hpage
  unfold rndwn pageSize at *
  omega

section

variable {pg pg' : Paging} {σ σ' : Sched} {virtAddr : PageWord} {stack : InterruptStack}

/-- The fault is one that the handler does not end the process for. -/
def Mappable (stack : InterruptStack) : Prop := stack.errorCode &&& pfPresent ≠ 0 ∨ stack.errorCode &&& pfWritable ≠ 0

/-- Such a fault of a user gets the frame that the allocator returns. -/
theorem pageFaultHandler_eq (huser : isUserInterrupt stack = true ∧ stack.errorCode &&& pfUser ≠ 0) (hmap : Mappable stack) :
    pageFaultHandler pg σ virtAddr stack = do
      assert ((pmmGetFrame pg.pm).1 != null) "frame"
      let pg ← vmmMapPage { pg with pm := (pmmGetFrame pg.pm).2 } (σ.procs σ.current).pml4 (BitVec.ofNat 64 (pmmGetFrame pg.pm).1)
        (roundedFault virtAddr) vmmUserAttributes
      return (pg, σ) := by
  have hcode : (stack.errorCode &&& pfPresent != 0 || stack.errorCode &&& pfWritable != 0) = true := by
    simpa [Mappable] using hmap
  rw [pageFaultHandler]
  simp only [huser.1, hcode, Bool.not_true, Bool.false_or, beq_iff_eq, huser.2, if_false, if_true]
  rfl

/-- A handler that returned was called for a fault of a user. -/
theorem user_of_handled (h : pageFaultHandler pg σ virtAddr stack = .ok (pg', σ')) :
    isUserInterrupt stack = true ∧ stack.errorCode &&& pfUser ≠ 0 := by
  by_contra hno
  have hcond : (!isUserInterrupt stack || stack.errorCode &&& pfUser == 0) = true := by
    by_contra hc
    refine hno ?_
    simpa using hc
  rw [pageFaultHandler, if_pos hcond] at h
  cases h

/-- What the handler does: it maps the rounded address to a new frame. -/
theorem pageFaultHandler_created (hok : SpacesOk pg σ) (hcur : σ.current ∈ σ.tree) (hmap : Mappable stack)
    (h : pageFaultHandler pg σ virtAddr stack = .ok (pg', σ')) :
    σ' = σ ∧ PageCreated pg pg' σ.spaces (σ.procs σ.current).pml4 (roundedFault virtAddr) (pmmGetFrame pg.pm).1 := by
  rw [pageFaultHandler_eq (user_of_handled h) hmap] at h
  obtain ⟨_, hassert, h⟩ := bind_eq_ok.mp h
  obtain ⟨pg1, hmapped, hret⟩ := bind_eq_ok.mp h
  obtain ⟨rfl, rfl⟩ := Prod.mk.inj (Except.ok.inj hret)
  have hne : (pmmGetFrame pg.pm).1 ≠ null := by
    intro hnull
    simp [hnull] at hassert
  have hcreate : vmmCreatePage pg (σ.procs σ.current).pml4 (roundedFault virtAddr) vmmUserAttributes = .ok ((pmmGetFrame pg.pm).1, pg1) := by
    simp only [vmmCreatePage, if_neg hne]
    exact bind_eq_ok.mpr ⟨pg1, hmapped, rfl⟩
  exact ⟨rfl, (vmmCreatePage_created hok.wf ⟨σ.current, hcur, rfl⟩ hok.memory (fun _ => roundedFault_aligned virtAddr) hcreate hne).2⟩

/-- Four frames are enough for the page and its tables. -/
theorem pageFaultHandler_returns (hok : SpacesOk pg σ) (hcur : σ.current ∈ σ.tree) (hmap : Mappable stack)
    (huser : isUserInterrupt stack = true ∧ stack.errorCode &&& pfUser ≠ 0) (hfree : FramesAvailable pg.pm 4) :
    ∃ pg', pageFaultHandler pg σ virtAddr stack = .ok (pg', σ) := by
  obtain ⟨hne, hlt, hrest⟩ := hfree
  have hfresh := pmmGetFrame_freshFrame hok.memory hne
  have hmissing := missingTables_le { pg with pm := (pmmGetFrame pg.pm).2 } (σ.procs σ.current).pml4 (tablePath (roundedFault virtAddr))
  obtain ⟨pg', hmapped, -⟩ := vmmMapPage_ok (hok.wf.allocated hfresh.used) ⟨σ.current, hcur, rfl⟩ (roundedFault_aligned virtAddr)
    (by rw [toNat_frame hlt]; exact hfresh.aligned) (by rwa [toNat_frame hlt]) vmmUserAttributes_present
    (hrest.mono hmissing)
  refine ⟨pg', ?_⟩
  rw [pageFaultHandler_eq huser hmap, show ((pmmGetFrame pg.pm).1 != null) = true by simpa using hne]
  exact bind_eq_ok.mpr ⟨(), rfl, bind_eq_ok.mpr ⟨pg', hmapped, rfl⟩⟩

/-- A fault that the handler returns from is resolved exactly when it was at the first byte of a page, or when both its page and the
next one were mapped before to the frame that was then allocated. It returns when there are frames for the page and its tables. -/
theorem pageFault_resolved_iff (hok : SpacesOk pg σ) (hcur : σ.current ∈ σ.tree) (hmap : Mappable stack) :
    (∀ pg' σ', pageFaultHandler pg σ virtAddr stack = .ok (pg', σ') → σ' = σ ∧
      (FaultResolved pg pg' (σ.procs σ.current).pml4 (pmmGetFrame pg.pm).1 virtAddr ↔
        virtAddr.toNat % pageSize = 0 ∨
          translate pg (σ.procs σ.current).pml4 virtAddr = some (pmmGetFrame pg.pm).1 ∧
            translate pg (σ.procs σ.current).pml4 (roundedFault virtAddr) = some (pmmGetFrame pg.pm).1)) ∧
      (isUserInterrupt stack = true ∧ stack.errorCode &&& pfUser ≠ 0 → FramesAvailable pg.pm 4 →
        ∃ pg', pageFaultHandler pg σ virtAddr stack = .ok (pg', σ)) := by
  refine ⟨fun pg' σ' h => ?_, pageFaultHandler_returns hok hcur hmap⟩
  obtain ⟨hσ, hcreated⟩ := pageFaultHandler_created hok hcur hmap h
  have hroot : (σ.procs σ.current).pml4 ∈ σ.spaces := ⟨σ.current, hcur, rfl⟩
  refine ⟨hσ, ?_⟩
  by_cases haligned : virtAddr.toNat % pageSize = 0
  · -- the rounding changes nothing
    refine iff_of_true ?_ (Or.inl haligned)
    have hself := hcreated.self
    have hother := hcreated.other _ hroot
    rw [roundedFault, rndwn_aligned virtAddr haligned] at hself hother
    exact ⟨hself, hother⟩
  · have hne := pageOf_roundedFault haligned
    have hkept := hcreated.other _ hroot virtAddr hne.symm
    rw [or_iff_right haligned]
    constructor
    · intro hres
      exact ⟨hkept.symm.trans hres.mapped, (hres.others _ hne).symm.trans hcreated.self⟩
    · rintro ⟨hbefore, hnext⟩
      refine ⟨hkept.trans hbefore, fun v hv => ?_⟩
      by_cases hpage : pageOf v = pageOf (roundedFault virtAddr)
      · rw [translate_of_pageOf_eq pg' _ hpage, translate_of_pageOf_eq pg _ hpage, hnext]
        exact hcreated.self
      · exact hcreated.other _ hroot v hpage

end

/-- A user's write to a page that is not present. -/
def writeFault : InterruptStack := { InterruptStack.ofStack [] with cs := gdtUserCs, ds := gdtUserDs, errorCode := pfWritable ||| pfUser }

/-- A write to the first byte of a page maps the page. -/
theorem pageFault_resolved_first : ∃ pg', pageFaultHandler rootPaging idleSched 0x400000 writeFault = .ok (pg', idleSched) ∧
    FaultResolved rootPaging pg' 0x3000 (pmmGetFrame rootPaging.pm).1 0x400000 := by
  have hthm := @pageFault_resolved_iff rootPaging idleSched 0x400000 writeFault spacesOk_idle (by decide) (Or.inr (by decide))
  obtain ⟨pg', h⟩ := hthm.2 (by decide) (by decide)
  exact ⟨pg', h, (hthm.1 pg' idleSched h).2.mpr (Or.inl (by decide))⟩

/-- A write to a byte inside the page maps the next page, and the page itself is still not mapped. -/
theorem pageFault_repeats : SpacesOk rootPaging idleSched ∧ idleSched.current ∈ idleSched.tree ∧ Mappable writeFault ∧
    ∃ pg', pageFaultHandler rootPaging idleSched 0x400ABC writeFault = .ok (pg', idleSched) ∧ translate pg' 0x3000 0x400ABC = none ∧
      translate pg' 0x3000 0x401000 = some (pmmGetFrame rootPaging.pm).1 ∧
      ¬ FaultResolved rootPaging pg' 0x3000 (pmmGetFrame rootPaging.pm).1 0x400ABC := by
  have hmap : Mappable writeFault := Or.inr (by decide)
  obtain ⟨pg', h⟩ : ∃ pg', pageFaultHandler rootPaging idleSched 0x400ABC writeFault = .ok (pg', idleSched) :=
    pageFaultHandler_returns spacesOk_idle (by decide) hmap (by decide) (by decide)
  obtain ⟨-, hcreated⟩ := pageFaultHandler_created spacesOk_idle (by decide) hmap h
  have hnone : translate pg' 0x3000 0x400ABC = none :=
    (hcreated.other 0x3000 (by rw [idleSched_spaces]; rfl) 0x400ABC (by decide)).trans (by decide)
  refine ⟨spacesOk_idle, by decide, hmap, pg', h, hnone, hcreated.self, fun hres => ?_⟩
  have := hnone.symm.trans hres.mapped
  cases this

end OmegaOS
