import Novachains.Dms.SMEMgr.Runs

/-!
# The free-position hint under concurrency

A reservation reads the hint and then works on one segment after the other, each under the segment's
latch; a release works on one segment under its latch and lowers the hint only afterwards. Deposits
take the manager's mutex exclusively and run alone.

The hint never hides free pages for good: a segment below it has none, or the release that freed
them is about to lower the hint.
-/

namespace Novachains.Dms

open Lib Function

universe u

inductive Pc
  /-- not in a call -/
  | idle
  /-- in `reservePages`, before the hint is read -/
  | fetch (numPages : ℕ)
  /-- in the loop of `reservePages`, about to work on the segment at `pos` -/
  | reserve (numPages pos : ℕ)
  /-- in `releasePages`, about to work on the segment -/
  | release (start : ℤ) (numPages : ℕ)
  /-- in `releasePages`, after the segment latch was left and before the hint is lowered -/
  | swap (segmentID numPages : ℕ)
  deriving DecidableEq

def Pc.Positive : Pc → Prop
  | fetch n => 1 ≤ n
  | reserve n _ => 1 ≤ n
  | _ => True

structure Threads (τ : Type u) where
  mgr : SMEMgr
  pc : τ → Pc

namespace Threads
variable {τ : Type u} [DecidableEq τ]

/-- Thread `t` makes an atomic step that leaves it at `pc` and the manager as `mgr`. -/
def move (s : Threads τ) (t : τ) (pc : Pc) (mgr : SMEMgr) : Threads τ where
  mgr := mgr
  pc := update s.pc t pc

@[simp] theorem move_mgr (s : Threads τ) (t : τ) (pc : Pc) (mgr : SMEMgr) :
    (s.move t pc mgr).mgr = mgr := rfl
@[simp] theorem move_pc_self (s : Threads τ) (t : τ) (pc : Pc) (mgr : SMEMgr) :
    (s.move t pc mgr).pc t = pc := update_self ..
@[simp] theorem move_move (s : Threads τ) (t : τ) (pc pc' : Pc) (mgr mgr' : SMEMgr) :
    (s.move t pc mgr).move t pc' mgr' = s.move t pc' mgr' := by
  simp [move]
theorem move_pc_of_ne (s : Threads τ) {t u : τ} (h : u ≠ t) (pc : Pc) (mgr : SMEMgr) :
    (s.move t pc mgr).pc u = s.pc u := update_of_ne h ..

/-- What follows the work of `reservePages` on one segment. -/
def afterReserve (numPages pos : ℕ) : Except Rc ℕ → Pc
  | .error .dmsNoSpc => .reserve numPages (pos + 1)
  | _ => .idle

/-- What follows the work of `releasePages` on its segment. -/
def afterRelease (g : Layout) (start : ℤ) (numPages : ℕ) (rc : Rc) : Pc :=
  if rc = .ok then .swap (SMEMgr.segmentID g start) numPages else .idle

/-- One step of a thread. -/
def advance (g : Layout) (s : Threads τ) (t : τ) : Threads τ :=
  match s.pc t with
  | .idle => s
  | .fetch n => s.move t (.reserve n s.mgr.freePos) s.mgr
  | .reserve n pos =>
    if pos < s.mgr.segments.length then
      let (r, mgr) := s.mgr.reserveAt n pos
      s.move t (afterReserve n pos r) mgr
    else s.move t .idle s.mgr
  | .release start n =>
    let (rc, mgr) := s.mgr.releaseAt g start n
    s.move t (afterRelease g start n rc) mgr
  | .swap k _ => s.move t .idle (s.mgr.swapLesserThan k)

/-- An idle thread calls, a thread makes its next atomic step, or a deposit runs while no call does.
-/
inductive Step (g : Layout) (s : Threads τ) : Threads τ → Prop
  | callReserve (t : τ) (n : ℕ) (hn : 1 ≤ n) (hidle : s.pc t = .idle) :
      Step g s (s.move t (.fetch n) s.mgr)
  | callRelease (t : τ) (start : ℤ) (n : ℕ) (hidle : s.pc t = .idle) :
      Step g s (s.move t (.release start n) s.mgr)
  | advance (t : τ) : Step g s (s.advance g t)
  | deposit (alloc : Bool) (hidle : ∀ t, s.pc t = .idle) (hd : SMEMgr.Depositable g s.mgr) :
      Step g s { s with mgr := SpaceOp.run g s.mgr (.deposit alloc) }

def Full (g : Layout) (m : SMEMgr) (k : ℕ) : Prop :=
  ∀ p, k * g.segmentPages ≤ p → p < k * g.segmentPages + g.segmentPages → ¬ m.sme.Free p

/-- Some release has freed pages of the segment and not yet lowered the hint. -/
def Lowering (s : Threads τ) (k : ℕ) : Prop := ∃ t n, 1 ≤ n ∧ s.pc t = .swap k n

/-- Every segment below the hint is full or waits for the hint to be lowered. -/
structure HintOk (g : Layout) (s : Threads τ) : Prop where
  inv : s.mgr.Inv g
  freePos_le : s.mgr.freePos ≤ s.mgr.segments.length
  positive : ∀ t, (s.pc t).Positive
  hint : ∀ k < s.mgr.freePos, Full g s.mgr k ∨ s.Lowering k

end Threads

/-- All interleavings of reservations and releases by the threads `τ`, from a manager
loaded from any bitmap. -/
def threadSystem (τ : Type u) [DecidableEq τ] (g : Layout) : System (Threads τ) where
  init s := (spaceSystem g).init s.mgr ∧ ∀ t, s.pc t = .idle
  step s s' := s.Step g s'

namespace Threads
variable {τ : Type u} {g : Layout} {s : Threads τ}
variable {m : SMEMgr} {k : ℕ}

theorem Full.mono {m' : SMEMgr} (h : Full g m k) (hsub : ∀ p, m'.sme.Free p → m.sme.Free p) :
    Full g m' k :=
  fun p h1 h2 hf => h p h1 h2 (hsub p hf)

theorem full_of_totalFree_eq_zero {sp : SegmentSpace} (h : m.Inv g) (hk : m.segments[k]? = some sp)
    (h0 : sp.totalFree = 0) : Full g m k := by
  have hok := h.segment k sp hk
  have hnil : sp.runs = [] := (total_eq_zero_iff hok.wf.canonical).mp (hok.wf.totalFree_eq ▸ h0)
  intro p h1 h2 hf
  rw [← hok.startExtent_eq] at h1 h2
  have hsize := hok.totalSize_eq
  rw [← Nat.add_sub_cancel' h1, hok.agrees _ (by omega), hnil] at hf
  exact not_covers_nil _ hf

theorem HintOk.deposit (h : s.HintOk g) (alloc : Bool) (hidle : ∀ t, s.pc t = .idle)
    (hd : SMEMgr.Depositable g s.mgr) :
    HintOk g { s with mgr := SpaceOp.run g s.mgr (.deposit alloc) } := by
  rcases SMEMgr.depositASegment_spec h.inv hd alloc with
    ⟨-, m', heq, hinv, hsme, hfp, hlen, -⟩ | ⟨-, heq⟩
  · rw [SpaceOp.run, heq]
    have hle := h.freePos_le
    refine ⟨hinv, by simp only [hfp, hlen]; omega, h.positive, ?_⟩
    intro k hk
    simp only [hfp] at hk
    rcases h.hint k hk with hf | ⟨t, n, -, ht⟩
    · exact Or.inl (hf.mono (by simp only [hsme]; exact fun _ => id))
    · rw [hidle t] at ht
      simp at ht
  · rw [SpaceOp.run, heq]
    exact h

variable [DecidableEq τ]
variable {t : τ}

theorem Lowering.move (h : s.Lowering k) (ht : ∀ n, s.pc t ≠ .swap k n) (pc : Pc) (m : SMEMgr) :
    (s.move t pc m).Lowering k := by
  obtain ⟨u, n, hn, hu⟩ := h
  have hut : u ≠ t := by rintro rfl; exact ht n hu
  exact ⟨u, n, hn, by rw [move_pc_of_ne s hut, hu]⟩

theorem HintOk.move (h : s.HintOk g) {pc : Pc} (hinv : m.Inv g)
    (hle : m.freePos ≤ m.segments.length) (hpos : pc.Positive)
    (hhint : ∀ k < m.freePos, Full g m k ∨ (s.move t pc m).Lowering k) :
    (s.move t pc m).HintOk g := by
  refine ⟨hinv, hle, ?_, hhint⟩
  intro u
  by_cases hu : u = t
  · rw [hu, move_pc_self]; exact hpos
  · rw [move_pc_of_ne s hu]; exact h.positive u

theorem HintOk.moveLocal (h : s.HintOk g) (ht : ∀ k n, s.pc t ≠ .swap k n) {pc : Pc}
    (hpos : pc.Positive) : (s.move t pc s.mgr).HintOk g :=
  h.move h.inv h.freePos_le hpos fun k hk => (h.hint k hk).imp_right fun hl =>
    hl.move (ht k) _ _

variable {n : ℕ}

theorem HintOk.reserve (h : s.HintOk g) {pos : ℕ} (ht : s.pc t = .reserve n pos)
    (hpos : pos < s.mgr.segments.length) :
    (s.move t (afterReserve n pos (s.mgr.reserveAt n pos).1) (s.mgr.reserveAt n pos).2).HintOk g := by
  have hn : 1 ≤ n := by simpa [ht, Pc.Positive] using h.positive t
  have hswap : ∀ k j, s.pc t ≠ .swap k j := by simp [ht]
  obtain ⟨sp, hsp⟩ : ∃ sp, s.mgr.segments[pos]? = some sp := ⟨_, List.getElem?_eq_getElem hpos⟩
  rcases lt_or_ge (largest sp.runs) n with hlt | hge
  · rw [SMEMgr.reserveAt_noSpc h.inv hsp hlt]
    by_cases hb : sp.totalFree = 0 ∧ s.mgr.freePos = pos
    · -- The hint stands at a full segment and moves past it.
      rw [if_pos hb]
      refine h.move (h.inv.setFreePos _) (Nat.succ_le_of_lt hpos) hn ?_
      intro k hk
      rcases lt_or_eq_of_le (Nat.lt_succ_iff.mp hk) with hk | rfl
      · exact (h.hint k (by omega)).imp_right fun hl => hl.move (hswap k) _ _
      · exact Or.inl (full_of_totalFree_eq_zero (h.inv.setFreePos _) hsp hb.1)
    · rw [if_neg hb]
      exact h.moveLocal hswap hn
  · obtain ⟨page, m', heq, hinv, htook, hfp⟩ := SMEMgr.reserveAt_ok h.inv hn hsp hge
    rw [heq]
    refine h.move hinv (by rw [hfp, htook.length_eq]; exact h.freePos_le) trivial ?_
    intro k hk
    rw [hfp] at hk
    refine (h.hint k hk).imp (fun hf => hf.mono ?_) fun hl => hl.move (hswap k) _ _
    intro p hp
    rw [htook.sme_eq, SME.free_setRange] at hp
    exact hp.1

theorem HintOk.release (h : s.HintOk g) {start : ℤ} (ht : s.pc t = .release start n) :
    (s.move t (afterRelease g start n (s.mgr.releaseAt g start n).1)
      (s.mgr.releaseAt g start n).2).HintOk g := by
  have hswap : ∀ k j, s.pc t ≠ .swap k j := by simp [ht]
  rcases SMEMgr.releaseAt_spec h.inv start n with
    ⟨⟨hin, -⟩, m', heq, hinv, hsme, hfp, hlen, -⟩ | ⟨-, heq⟩
  · rw [heq]
    refine h.move hinv (by rw [hfp, hlen]; exact h.freePos_le) trivial ?_
    intro k hk
    rw [hfp] at hk
    by_cases hk' : k = SMEMgr.segmentID g start ∧ 1 ≤ n
    · -- Pages of this segment were freed, and this thread is now to lower the hint.
      exact Or.inr ⟨t, n, hk'.2, by rw [move_pc_self, hk'.1]; rfl⟩
    refine (h.hint k hk).imp ?_ fun hl => hl.move (hswap k) _ _
    intro hf p h1 h2 hp
    rw [hsme, SME.free_freeRange] at hp
    rcases hp with hp | hp
    · exact hf p h1 h2 hp
    obtain ⟨j, hj, hlo, hmid, hhi⟩ := hin
    have hmax : maxPg < 2 ^ 31 := by decide
    have hjl := h.inv.length_le
    have hid := SMEMgr.segmentID_eq g start j (by omega) hlo hmid
    have hkj : k ≠ j := by rintro rfl; exact hk' ⟨hid.symm, by omega⟩
    obtain ⟨i, rfl⟩ : ∃ i, p = k * g.segmentPages + i := ⟨p - k * g.segmentPages, by omega⟩
    have hi : i < g.segmentPages := by omega
    exact g.page_not_mem hkj hi ⟨by omega, by omega⟩
  · rw [heq]
    exact h.moveLocal hswap trivial

theorem HintOk.swap (h : s.HintOk g) (ht : s.pc t = .swap k n) :
    (s.move t .idle (s.mgr.swapLesserThan k)).HintOk g := by
  have hfp : (s.mgr.swapLesserThan k).freePos = min s.mgr.freePos k := by
    by_cases hk : k < s.mgr.freePos
    · rw [SMEMgr.swapLesserThan, if_pos hk]
      exact (min_eq_right hk.le).symm
    · rw [SMEMgr.swapLesserThan, if_neg hk]
      omega
  have hrest : (s.mgr.swapLesserThan k).segments = s.mgr.segments ∧
      (s.mgr.swapLesserThan k).sme = s.mgr.sme := by
    rw [SMEMgr.swapLesserThan]; split <;> exact ⟨rfl, rfl⟩
  refine h.move (h.inv.swapLesserThan k) ?_ trivial ?_
  · rw [hfp, hrest.1]
    exact le_trans (min_le_left _ _) h.freePos_le
  intro j hj
  rw [hfp] at hj
  refine (h.hint j (by omega)).imp (fun hf => hf.mono (by rw [hrest.2]; exact fun _ => id)) ?_
  -- Segments below the new hint lie below `k`, so another thread is to lower it for them.
  intro hl
  refine hl.move ?_ _ _
  intro i hi
  rw [ht] at hi
  have : k = j := (Pc.swap.injEq .. ▸ hi).1
  omega

theorem HintOk.advance (h : s.HintOk g) (t : τ) : (s.advance g t).HintOk g := by
  rw [Threads.advance]
  split
  case h_1 => exact h
  case h_2 n ht =>
    exact h.moveLocal (by simp [ht]) (by simpa [ht, Pc.Positive] using h.positive t)
  case h_3 n pos ht =>
    split
    · exact h.reserve ht (by assumption)
    · exact h.moveLocal (by simp [ht]) trivial
  case h_4 start n ht => exact h.release ht
  case h_5 k n ht => exact h.swap ht

end Threads

theorem hintOk_invariant (τ : Type u) [DecidableEq τ] (g : Layout) :
    (threadSystem τ g).Invariant (Threads.HintOk g) where
  init := by
    rintro s ⟨⟨sme, q, alloc, hq, hinit⟩, hidle⟩
    rcases SMEMgr.init_spec g sme q alloc hq with ⟨m', heq, hinv, -, hfp, -⟩ | ⟨heq, -⟩
    · rw [hinit] at heq
      cases heq
      refine ⟨hinv, by omega, fun t => by rw [hidle t]; trivial, ?_⟩
      intro k hk
      omega
    · rw [hinit] at heq
      simp at heq
  step := by
    intro s s' h hstep
    cases hstep with
    | callReserve t n hn hidle => exact h.moveLocal (by simp [hidle]) hn
    | callRelease t start n hidle => exact h.moveLocal (by simp [hidle]) trivial
    | advance t => exact h.advance t
    | deposit alloc hidle hd => exact h.deposit alloc hidle hd

/-- **The hint never hides free pages.**  In every interleaving a segment below the hint is full or
about to be hinted at, so a reservation alone finds nothing only if there is nothing. -/
theorem hint_never_hides (τ : Type u) [DecidableEq τ] (g : Layout) {s : Threads τ}
    (hs : (threadSystem τ g).Reachable s) :
    (∀ k < s.mgr.freePos, Threads.Full g s.mgr k ∨ s.Lowering k) ∧
    ((∀ t, s.pc t = .idle) → ∀ n m', 1 ≤ n → s.mgr.reservePages n = (.ok none, m') →
      ∀ k < s.mgr.segmentNum, ¬ ∃ page, k * g.segmentPages ≤ page ∧
        page + n ≤ (k + 1) * g.segmentPages ∧
        ∀ p, page ≤ p → p < page + n → s.mgr.sme.Free p) := by
  have h := (hintOk_invariant τ g).reachable hs
  refine ⟨h.hint, ?_⟩
  rintro hidle n m' hn hres k hk ⟨page, h1, h2, hfree⟩
  rw [Nat.succ_mul] at h2
  rcases SMEMgr.reservePages_spec h.inv hn with ⟨page', m'', heq, -⟩ | ⟨fp, heq, hall⟩
  · rw [hres] at heq
    simp at heq
  rcases lt_or_ge k s.mgr.freePos with hlt | hge
  · rcases h.hint k hlt with hf | ⟨t, j, -, ht⟩
    · exact hf page h1 (by omega) (hfree page le_rfl (by omega))
    · rw [hidle t] at ht
      simp at ht
  · obtain ⟨sp, hsp⟩ : ∃ sp, s.mgr.segments[k]? = some sp := ⟨_, List.getElem?_eq_getElem hk⟩
    have hok := h.inv.segment k sp hsp
    have hstart := hok.startExtent_eq
    have hsize := hok.totalSize_eq
    -- Consecutive free pages lie in one run of the segment's list.
    have hrun : Consecutive (Covers sp.runs) (page - sp.startExtent) n := by
      intro i hi
      refine (hok.agrees _ (by omega)).mp ?_
      rw [← add_assoc, Nat.add_sub_cancel' (by omega)]
      exact hfree (page + i) (by omega) (by omega)
    have := hok.wf.canonical.consecutive_le hrun
    have := hall k sp hge hsp
    omega

/-- Of four pages the first is in use: four pages cannot be had. -/
theorem hint_never_hides_four_pages :
    ¬ ∃ page, 0 * 4 ≤ page ∧ page + 4 ≤ (0 + 1) * 4 ∧
      ∀ p, page ≤ p → p < page + 4 → (SME.empty.setRange 0 1).Free p := by
  have h0 : (threadSystem Bool ⟨2, by decide⟩).Reachable
      { mgr := { sme := SME.empty.setRange 0 1, totalFree := 3, freePos := 0,
                 segments := [⟨[nodeSet 1 3], 3, 0, 4, 3⟩] },
        pc := fun _ => .idle } :=
    .init ⟨⟨SME.empty.setRange 0 1, 1, fun _ => true, by decide, rfl⟩, fun _ => rfl⟩
  exact (hint_never_hides Bool _ h0).2 (fun _ => rfl) 4 _ (by decide) rfl 0 (by decide)

/-- **No page is given out twice**: the pages a thread is given are free at that step, in any
interleaving. -/
theorem grants_apart (τ : Type u) [DecidableEq τ] (g : Layout) {s : Threads τ}
    (hs : (threadSystem τ g).Reachable s) : s.mgr.Represents g ∧
    ∀ t n pos page, s.pc t = .reserve n pos → (s.mgr.reserveAt n pos).1 = .ok page → ∀ p,
      (page ≤ p → p < page + n → s.mgr.sme.Free p) ∧
      ((s.advance g t).mgr.sme.Free p ↔ s.mgr.sme.Free p ∧ ¬ (page ≤ p ∧ p < page + n)) := by
  have h := (hintOk_invariant τ g).reachable hs
  refine ⟨h.inv.represents, fun t n pos page ht hpage p => ?_⟩
  have hn : 1 ≤ n := by simpa [ht, Pc.Positive] using h.positive t
  cases hsp : s.mgr.segments[pos]? with
  | none => simp [SMEMgr.reserveAt, hsp] at hpage
  | some sp =>
    rcases lt_or_ge (largest sp.runs) n with hlt | hge
    · rw [SMEMgr.reserveAt_noSpc h.inv hsp hlt] at hpage
      cases hpage
    · obtain ⟨page', m', heq, -, htook, -⟩ := SMEMgr.reserveAt_ok h.inv hn hsp hge
      rw [heq] at hpage
      cases hpage
      refine ⟨htook.free p, ?_⟩
      simp only [Threads.advance, ht, if_pos (List.getElem?_eq_some_iff.mp hsp).1, heq,
        Threads.move_mgr]
      rw [htook.sme_eq, SME.free_setRange]

theorem grants_apart_four_pages : ∃ s : Threads Bool, s.pc true = .reserve 3 0 ∧
    ¬ (s.advance ⟨2, by decide⟩ true).mgr.sme.Free 0 := by
  have h0 : (threadSystem Bool ⟨2, by decide⟩).Reachable
      ⟨⟨⟨SME.empty, 4, 0⟩, [⟨[nodeSet 0 4], 4, 0, 4, 4⟩]⟩, fun _ => .idle⟩ :=
    .init ⟨⟨SME.empty, 1, fun _ => true, by decide, rfl⟩, fun _ => rfl⟩
  have h := System.Reachable.step (h0.step (.callReserve true 3 (by decide) rfl)) (.advance true)
  exact ⟨_, rfl, fun hfree => (((grants_apart Bool _ h).2 true 3 0 0 rfl rfl 0).2.mp hfree).2
    (by decide)⟩

end Novachains.Dms
