import Novachains.Basic
import Novachains.Lib.Topological
import Mathlib.Data.Fintype.Card

/-!
# The start order of control blocks

`_pmdContainer` brings its control blocks, one for each type, into an order in which every block
comes after the blocks it depends on.  `_addDependencyCB` is a depth-first search with one flag for
each block; a block that has its flag but is not in the order yet is being visited.

The number of types `PMD_CB_MAX` is the parameter `n`; the search has fuel for its depth, of which
`n + 1` is enough.
-/

namespace Novachains.Pmd

open Lib List

/-- What a control block answers: the types it depends on, and the results of its functions. -/
structure CB where
  dependency : List ℤ
  init : Rc := .ok
  active : Rc := .ok
  deactive : Rc := .ok
  fini : Rc := .ok

variable {n : ℕ}

abbrev ArrayCB (n : ℕ) := Fin n → Option CB

/-- The flags of the search and the blocks in `_vecCB`. -/
structure Search (n : ℕ) where
  flag : Fin n → Bool := fun _ => false
  order : List (Fin n) := []

def typeOf (n : ℕ) (d : ℤ) : Option (Fin n) :=
  if h : 0 ≤ d ∧ d < n then some ⟨d.toNat, by omega⟩ else none

/-- The loop over the dependencies of a block; `add` is the recursive call. -/
def addAll (arr : ArrayCB n) (add : Fin n → Search n → Option (Rc × Search n)) :
    List ℤ → Search n → Option (Rc × Search n)
  | [], s => some (.ok, s)
  | d :: ds, s =>
    match typeOf n d with
    | none => some (.sys, s)
    | some t =>
      if (arr t).isNone then some (.sys, s)
      else if t ∈ s.order then addAll arr add ds s
      else
        match add t s with
        | some (.ok, s') => addAll arr add ds s'
        | r => r

variable (arr : ArrayCB n)

def dependencies (t : Fin n) : List ℤ := (arr t).elim [] CB.dependency

/-- `_addDependencyCB`. -/
def addDependencyCB (arr : ArrayCB n) : ℕ → Fin n → Search n → Option (Rc × Search n)
  | 0, _, _ => none
  | fuel + 1, t, s =>
    if s.flag t then some (.sys, s)
    else
      match addAll arr (addDependencyCB arr fuel) (dependencies arr t)
          { s with flag := Function.update s.flag t true } with
      | some (.ok, s') => some (.ok, { s' with order := s'.order ++ [t] })
      | r => r

/-- The loop of `_checkDependency`. -/
def checkAll (arr : ArrayCB n) : List (Fin n) → Search n → Option (Rc × Search n)
  | [], s => some (.ok, s)
  | t :: ts, s =>
    if (arr t).isNone || s.flag t then checkAll arr ts s
    else
      match addDependencyCB arr (n + 1) t s with
      | some (.ok, s') => checkAll arr ts s'
      | r => r

/-- `_checkDependency`, the first time. -/
def checkDependency : Option (Rc × Search n) :=
  checkAll arr (List.finRange n) {}

def Depends (t u : Fin n) : Prop := (u : ℤ) ∈ dependencies arr t

def NamesBlock (d : ℤ) : Prop := ∃ u, typeOf n d = some u ∧ (arr u).isSome

@[simp] theorem typeOf_coe (u : Fin n) : typeOf n u = some u := by
  simp [typeOf]

theorem typeOf_eq_some {d : ℤ} {u : Fin n} (h : typeOf n d = some u) : d = u := by
  unfold typeOf at h
  split at h
  · cases h
    simp only
    omega
  · cases h

/-- Between the calls the order has registered blocks once, each after all it depends on. -/
structure Search.Inv (arr : ArrayCB n) (s : Search n) : Prop where
  nodup : s.order.Nodup
  flagged : ∀ t ∈ s.order, s.flag t = true
  registered : ∀ t ∈ s.order, (arr t).isSome
  named : ∀ t ∈ s.order, ∀ d ∈ dependencies arr t, NamesBlock arr d
  ordered : DependencyOrdered (Depends arr) s.order

def Search.Visiting (s : Search n) (t : Fin n) : Prop := s.flag t = true ∧ t ∉ s.order

/-- What a successful call leaves: the order has grown, and the same blocks are being visited. -/
structure Search.Grown (s s' : Search n) : Prop where
  order : s.order <+: s'.order
  flag : ∀ t, s.flag t = true → s'.flag t = true
  visiting : ∀ t, s'.Visiting t ↔ s.Visiting t

def Search.unflagged (s : Search n) : ℕ := (Finset.univ.filter fun t => s.flag t = false).card

def Flawed : Prop :=
  (∃ t, ∃ d ∈ dependencies arr t, ¬ NamesBlock arr d) ∨ ∃ t, Relation.TransGen (Depends arr) t t

theorem Search.Grown.rfl {s : Search n} : s.Grown s := ⟨prefix_rfl, fun _ h => h, fun _ => .rfl⟩

theorem Search.Grown.trans {s s' s'' : Search n} (h : s.Grown s') (h' : s'.Grown s'') :
    s.Grown s'' :=
  ⟨h.order.trans h'.order, fun t ht => h'.flag t (h.flag t ht),
    fun t => (h'.visiting t).trans (h.visiting t)⟩

theorem Search.Grown.unflagged_le {s s' : Search n} (h : s.Grown s') : s'.unflagged ≤ s.unflagged := by
  refine Finset.card_le_card fun t ht => ?_
  simp only [Finset.mem_filter, Finset.mem_univ, true_and] at ht ⊢
  by_contra hflag
  rw [h.flag t (by simpa using hflag)] at ht
  cases ht

/-- What a call comes to: it succeeds, with `P`, or something is wrong with the dependencies. -/
def Ends (r : Option (Rc × Search n)) (P : Search n → Prop) : Prop :=
  (∃ s, r = some (.ok, s) ∧ P s) ∨ ∃ rc s, r = some (rc, s) ∧ rc ≠ .ok ∧ Flawed arr

def Search.visit (s : Search n) (t : Fin n) : Search n :=
  { s with flag := Function.update s.flag t true }

section

variable {arr : ArrayCB n} {s : Search n} {t : Fin n}

theorem Search.visiting_visit (ht : t ∉ s.order) (g : Fin n) :
    (s.visit t).Visiting g ↔ s.Visiting g ∨ g = t := by
  by_cases hg : g = t
  · subst hg
    simp [Visiting, visit, ht]
  · simp [Visiting, visit, hg]

theorem Search.Inv.visit (h : s.Inv arr) : (s.visit t).Inv arr where
  nodup := h.nodup
  flagged u hu := by
    by_cases hut : u = t
    · simp [Search.visit, hut]
    · simpa [Search.visit, hut] using h.flagged u hu
  registered := h.registered
  named := h.named
  ordered := h.ordered

theorem Search.unflagged_visit (ht : s.flag t = false) : (s.visit t).unflagged < s.unflagged := by
  refine Finset.card_lt_card ?_
  rw [Finset.ssubset_iff_of_subset]
  · refine ⟨t, by simpa only [Finset.mem_filter, Finset.mem_univ, true_and] using ht, ?_⟩
    rw [Finset.mem_filter]
    simp [visit]
  intro u hu
  simp only [Finset.mem_filter, Finset.mem_univ, true_and] at hu ⊢
  by_cases hut : u = t
  · rw [hut, ht]
  · simpa [visit, hut] using hu

theorem Ends.mono {r : Option (Rc × Search n)} {P Q : Search n → Prop} (h : Ends arr r P)
    (hPQ : ∀ s, P s → Q s) : Ends arr r Q :=
  h.imp_left fun ⟨s, hr, hP⟩ => ⟨s, hr, hPQ s hP⟩

theorem Ends.andThen {r : Option (Rc × Search n)} {P Q : Search n → Prop}
    {k : Search n → Option (Rc × Search n)} (hk : ∀ s, P s → Ends arr (k s) Q) :
    Ends arr r P → Ends arr (match r with
      | some (.ok, s) => k s
      | r => r) Q := by
  rintro (⟨s, rfl, hP⟩ | ⟨rc, s, rfl, hrc, hflawed⟩)
  · exact hk s hP
  · refine .inr ⟨rc, s, ?_, hrc, hflawed⟩
    cases rc <;> first | rfl | exact absurd rfl hrc

theorem addAll_spec {add : Fin n → Search n → Option (Rc × Search n)} {fuel : ℕ}
    (hadd : ∀ u s, s.Inv arr → s.unflagged < fuel → u ∉ s.order → (arr u).isSome →
      (∀ g, s.Visiting g → Relation.TransGen (Depends arr) g u) →
      Ends arr (add u s) fun s' => s'.Inv arr ∧ s.Grown s' ∧ u ∈ s'.order)
    {ds : List ℤ} (hds : ∀ d ∈ ds, d ∈ dependencies arr t) (hinv : s.Inv arr)
    (hfuel : s.unflagged < fuel)
    (hvisiting : ∀ g, s.Visiting g → Relation.ReflTransGen (Depends arr) g t) :
    Ends arr (addAll arr add ds s) fun s' =>
      s'.Inv arr ∧ s.Grown s' ∧ ∀ d ∈ ds, ∃ u ∈ s'.order, (u : ℤ) = d := by
  induction ds generalizing s with
  | nil => exact .inl ⟨s, rfl, hinv, .rfl, by simp⟩
  | cons d ds ih =>
    obtain ⟨hd, hrest⟩ := forall_mem_cons.mp hds
    cases htype : typeOf n d with
    | none =>
      refine .inr ⟨.sys, s, by simp [addAll, htype], by simp, .inl ⟨t, d, hd, ?_⟩⟩
      rintro ⟨u, hu, -⟩
      simp [htype] at hu
    | some u =>
      obtain rfl := typeOf_eq_some htype
      by_cases hreg : (arr u).isNone
      · refine .inr ⟨.sys, s, by simp [addAll, hreg], by simp, .inl ⟨t, u, hd, ?_⟩⟩
        rintro ⟨u', hu', hsome⟩
        obtain rfl : u = u' := by simpa using hu'
        simp [Option.isNone_iff_eq_none.mp hreg] at hsome
      simp only [addAll, htype, hreg, Bool.false_eq_true, if_false]
      split_ifs with hin
      · refine (ih hrest hinv hfuel hvisiting).mono fun s' ⟨hinv', hgrown, hall⟩ => ?_
        exact ⟨hinv', hgrown, forall_mem_cons.mpr ⟨⟨u, hgrown.order.subset hin, rfl⟩, hall⟩⟩
      have hto : ∀ g, s.Visiting g → Relation.TransGen (Depends arr) g u := fun g hg =>
        Relation.TransGen.tail' (hvisiting g hg) hd
      refine Ends.andThen ?_
        (hadd u s hinv hfuel hin (by simpa [Option.isSome_iff_ne_none] using hreg) hto)
      rintro s₁ ⟨hinv₁, hgrown₁, hu⟩
      refine (ih hrest hinv₁ (hgrown₁.unflagged_le.trans_lt hfuel) fun g hg =>
        hvisiting g ((hgrown₁.visiting g).mp hg)).mono fun s' ⟨hinv', hgrown, hall⟩ => ?_
      exact ⟨hinv', hgrown₁.trans hgrown,
        forall_mem_cons.mpr ⟨⟨u, hgrown.order.subset hu, rfl⟩, hall⟩⟩

theorem Search.Inv.push (h : s.Inv arr) (hreg : (arr t).isSome) (ht : s.Visiting t)
    (hall : ∀ d ∈ dependencies arr t, ∃ u ∈ s.order, (u : ℤ) = d) :
    ({ s with order := s.order ++ [t] } : Search n).Inv arr where
  nodup := by
    rw [nodup_append]
    refine ⟨h.nodup, by simp, fun a ha b hb hab => ht.2 ?_⟩
    rw [mem_singleton] at hb
    rwa [← hb, ← hab]
  flagged u hu := by
    rcases mem_append.mp hu with hu | hu
    · exact h.flagged u hu
    · rw [mem_singleton.mp hu]
      exact ht.1
  registered u hu := by
    rcases mem_append.mp hu with hu | hu
    · exact h.registered u hu
    · rwa [mem_singleton.mp hu]
  named u hu d hd := by
    rcases mem_append.mp hu with hu | hu
    · exact h.named u hu d hd
    · rw [mem_singleton.mp hu] at hd
      obtain ⟨v, hv, rfl⟩ := hall d hd
      exact ⟨v, typeOf_coe v, h.registered v hv⟩
  ordered := by
    refine h.ordered.concat fun u hu => ?_
    obtain ⟨v, hv, heq⟩ := hall u hu
    obtain rfl : v = u := by
      apply Fin.ext
      omega
    exact hv

theorem Search.Grown.push {s' : Search n} (h : (s.visit t).Grown s') (hin : t ∉ s.order)
    (hflag : s.flag t = false) : s.Grown { s' with order := s'.order ++ [t] } where
  order := h.order.trans (prefix_append _ _)
  flag u hu := by
    refine h.flag u ?_
    by_cases hut : u = t
    · simp [Search.visit, hut]
    · simpa [Search.visit, hut] using hu
  visiting g := by
    have hg := (h.visiting g).trans (Search.visiting_visit hin g)
    constructor
    · intro hvis
      have hgt : g ≠ t := by
        intro hgt
        exact hvis.2 (by simp [hgt])
      exact (hg.mp ⟨hvis.1, fun hmem => hvis.2 (by simp [hmem])⟩).resolve_right hgt
    · intro hvis
      have hgt : g ≠ t := by
        intro hgt
        have := hvis.1
        rw [hgt, hflag] at this
        cases this
      obtain ⟨hf, hmem⟩ := hg.mpr (.inl hvis)
      exact ⟨hf, by simp [hmem, hgt]⟩

/-- **One call**, by induction on the fuel, ends in the order or with wrong dependencies. -/
theorem addDependencyCB_spec (fuel : ℕ) (t : Fin n) (s : Search n) (hinv : s.Inv arr)
    (hfuel : s.unflagged < fuel) (hin : t ∉ s.order) (hreg : (arr t).isSome)
    (hvisiting : ∀ g, s.Visiting g → Relation.TransGen (Depends arr) g t) :
    Ends arr (addDependencyCB arr fuel t s) fun s' => s'.Inv arr ∧ s.Grown s' ∧ t ∈ s'.order := by
  induction fuel generalizing t s with
  | zero => omega
  | succ fuel ih =>
    rw [addDependencyCB]
    by_cases hflag : s.flag t = true
    · rw [if_pos hflag]
      exact .inr ⟨.sys, s, rfl, by simp, .inr ⟨t, hvisiting t ⟨hflag, hin⟩⟩⟩
    rw [if_neg hflag]
    have hless := s.unflagged_visit (t := t) (by simpa using hflag)
    have hto : ∀ g, (s.visit t).Visiting g → Relation.ReflTransGen (Depends arr) g t := by
      intro g hg
      rcases (Search.visiting_visit hin g).mp hg with hg | rfl
      · exact (hvisiting g hg).to_reflTransGen
      · exact .refl
    refine Ends.andThen ?_
      (addAll_spec ih (fun d hd => hd) (hinv.visit (t := t)) (hless.trans_le (by omega)) hto)
    rintro s₁ ⟨hinv₁, hgrown, hall⟩
    have ht : s₁.Visiting t :=
      (hgrown.visiting t).mpr ((Search.visiting_visit hin t).mpr (.inr rfl))
    exact .inl ⟨_, rfl, hinv₁.push hreg ht hall, hgrown.push hin (by simpa using hflag), by simp⟩

/-- **The whole check**: the blocks of the list are all in the order, or something is wrong. -/
theorem checkAll_spec {ts : List (Fin n)} (hinv : s.Inv arr) (hidle : ∀ g, ¬ s.Visiting g) :
    Ends arr (checkAll arr ts s) fun s' =>
      s'.Inv arr ∧ s.order <+: s'.order ∧ ∀ t ∈ ts, (arr t).isSome → t ∈ s'.order := by
  induction ts generalizing s with
  | nil => exact .inl ⟨s, rfl, hinv, prefix_rfl, by simp⟩
  | cons t ts ih =>
    rw [checkAll]
    split_ifs with hskip
    · refine (ih hinv hidle).mono fun s' ⟨hinv', hpre, hall⟩ => ?_
      refine ⟨hinv', hpre, forall_mem_cons.mpr ⟨fun hreg => hpre.subset ?_, hall⟩⟩
      -- a flagged block is in the order, since none is being visited
      have hflag : s.flag t = true := by
        rcases Bool.or_eq_true _ _ |>.mp hskip with hnone | hflag
        · simp [Option.isNone_iff_eq_none.mp hnone] at hreg
        · exact hflag
      by_contra hin
      exact hidle t ⟨hflag, hin⟩
    obtain ⟨hreg, hflag⟩ : (arr t).isSome ∧ s.flag t = false := by
      simpa [Option.isSome_iff_ne_none] using hskip
    have hin : t ∉ s.order := fun hmem => by simp [hinv.flagged t hmem] at hflag
    have hfuel : s.unflagged < n + 1 := by
      have := Finset.card_filter_le Finset.univ fun t => s.flag t = false
      rw [Finset.card_univ, Fintype.card_fin] at this
      exact Nat.lt_succ_of_le this
    refine Ends.andThen ?_
      (addDependencyCB_spec (n + 1) t s hinv hfuel hin hreg fun g hg => absurd hg (hidle g))
    rintro s₁ ⟨hinv₁, hgrown, ht⟩
    refine (ih hinv₁ fun g hg => hidle g ((hgrown.visiting g).mp hg)).mono
      fun s' ⟨hinv', hpre, hall⟩ => ?_
    exact ⟨hinv', hgrown.order.trans hpre, forall_mem_cons.mpr ⟨fun _ => hpre.subset ht, hall⟩⟩

theorem Search.Inv.empty : ({} : Search n).Inv arr where
  nodup := nodup_nil
  flagged := by simp
  registered := by simp
  named := by simp
  ordered := dependencyOrdered_nil

theorem isSome_of_mem_dependencies {d : ℤ} (h : d ∈ dependencies arr t) : (arr t).isSome := by
  cases harr : arr t with
  | none => simp [dependencies, harr] at h
  | some cb => rfl

theorem Search.Inv.not_flawed (h : s.Inv arr) (hall : ∀ t, (arr t).isSome → t ∈ s.order) :
    ¬ Flawed arr := by
  rintro (⟨t, d, hd, hnot⟩ | ⟨t, hcycle⟩)
  · exact hnot (h.named t (hall t (isSome_of_mem_dependencies hd)) d hd)
  · obtain ⟨u, hu, -⟩ := Relation.TransGen.head'_iff.mp hcycle
    exact h.ordered.not_transGen_self h.nodup (hall t (isSome_of_mem_dependencies hu)) hcycle

end

/-- **The start order is a topological order.**  The check succeeds exactly when all dependencies in
reach are registered and there is no cycle; the order then has every block once, after those it
depends on. -/
theorem start_order_iff :
    ∃ rc s, checkDependency arr = some (rc, s)
      ∧ (rc = .ok ↔ (∀ t, (arr t).isSome → ∀ u, Relation.ReflTransGen (Depends arr) t u →
            ∀ d ∈ dependencies arr u, NamesBlock arr d)
          ∧ ∀ t, ¬ Relation.TransGen (Depends arr) t t)
      ∧ (rc = .ok → s.order.Nodup ∧ (∀ t, t ∈ s.order ↔ (arr t).isSome)
          ∧ DependencyOrdered (Depends arr) s.order) := by
  have hempty : ({} : Search n).Inv arr := Search.Inv.empty
  have hends : Ends arr (checkDependency arr) _ :=
    checkAll_spec hempty fun g hg => by simp [Search.Visiting] at hg
  rcases hends with ⟨s, hs, hinv, -, hall⟩ | ⟨rc, s, hs, hrc, hflawed⟩
  · have hmem : ∀ t, (arr t).isSome → t ∈ s.order := fun t => hall t (mem_finRange t)
    have hsound := hinv.not_flawed hmem
    refine ⟨.ok, s, hs, iff_of_true rfl ⟨fun t _ u _ d hd => ?_, fun t hcycle => ?_⟩, fun _ => ?_⟩
    · by_contra hnot
      exact hsound (.inl ⟨u, d, hd, hnot⟩)
    · exact hsound (.inr ⟨t, hcycle⟩)
    · exact ⟨hinv.nodup, fun t => ⟨hinv.registered t, hmem t⟩, hinv.ordered⟩
  · refine ⟨rc, s, hs, iff_of_false hrc fun hgood => ?_, fun h => absurd h hrc⟩
    rcases hflawed with ⟨t, d, hd, hnot⟩ | ⟨t, hcycle⟩
    · exact hnot (hgood.1 t (isSome_of_mem_dependencies hd) t .refl d hd)
    · exact hgood.2 t hcycle

end Novachains.Pmd
