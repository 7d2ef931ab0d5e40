import Mathlib

/-!
# Runs that can fail

When a sequence of steps that can each be refused succeeds, and what it then returns; and where it
fails.
-/

namespace AdaptiveMesh

variable {ε α β σ : Type}

theorem bind_eq_ok_iff {x : Except ε α} {f : α → Except ε β} {b : β} :
    x >>= f = .ok b ↔ ∃ a, x = .ok a ∧ f a = .ok b := by
  cases x with
  | error e => simp [bind, Except.bind]
  | ok a => simp [bind, Except.bind]

theorem ok_bind (a : α) (f : α → Except ε β) : (Except.ok a >>= f) = f a := rfl

theorem mapM_eq_ok_map {f : α → Except ε β} {g : α → β} {xs : List α}
    (h : ∀ x ∈ xs, f x = .ok (g x)) : xs.mapM f = .ok (xs.map g) := by
  induction xs with
  | nil => rfl
  | cons x xs ih =>
    rw [List.mapM_cons, h x List.mem_cons_self, ih fun y hy => h y (List.mem_cons_of_mem x hy)]
    rfl

theorem mapM_congr {f g : α → Except ε β} {xs : List α} (h : ∀ x ∈ xs, f x = g x) :
    xs.mapM f = xs.mapM g := by
  induction xs with
  | nil => rfl
  | cons x xs ih =>
    rw [List.mapM_cons, List.mapM_cons, h x List.mem_cons_self,
      ih fun y hy => h y (List.mem_cons_of_mem x hy)]

/-- What is done to each result can be done to the list of them. -/
theorem mapM_map {γ : Type} {f : α → Except ε β} {g : β → γ} {xs : List α} :
    (xs.mapM fun x => g <$> f x) = List.map g <$> xs.mapM f := by
  induction xs with
  | nil => rfl
  | cons x xs ih =>
    rw [List.mapM_cons, List.mapM_cons, ih]
    rcases f x with e | y
    · rfl
    · rcases xs.mapM f with e | ys <;> rfl

theorem mapM_eq_ok_iff {f : α → Except ε β} {xs : List α} {ys : List β} :
    xs.mapM f = .ok ys ↔ List.Forall₂ (fun x y => f x = .ok y) xs ys := by
  induction xs generalizing ys with
  | nil =>
    rw [List.mapM_nil, List.forall₂_nil_left_iff]
    exact ⟨fun h => (Except.ok.inj h).symm, fun h => h ▸ rfl⟩
  | cons x xs ih =>
    rw [List.mapM_cons, bind_eq_ok_iff, List.forall₂_cons_left_iff]
    constructor
    · rintro ⟨y, hy, h⟩
      obtain ⟨zs, hzs, h⟩ := bind_eq_ok_iff.1 h
      exact ⟨y, zs, hy, ih.1 hzs, (Except.ok.inj h).symm⟩
    · rintro ⟨y, zs, hy, hzs, rfl⟩
      refine ⟨y, hy, ?_⟩
      rw [ih.2 hzs]
      rfl

/-- A list of requests succeeds if each of them does. -/
theorem exists_mapM_eq_ok (f : α → Except ε β) (xs : List α) (h : ∀ x ∈ xs, ∃ y, f x = .ok y) :
    ∃ ys, xs.mapM f = .ok ys := by
  induction xs with
  | nil => exact ⟨[], rfl⟩
  | cons x xs ih =>
    obtain ⟨y, hy⟩ := h x List.mem_cons_self
    obtain ⟨ys, hys⟩ := ih fun z hz => h z (List.mem_cons_of_mem x hz)
    exact ⟨y :: ys, mapM_eq_ok_iff.2 (.cons hy (mapM_eq_ok_iff.1 hys))⟩

theorem mem_of_mapM_eq_ok {f : α → Except ε β} {xs : List α} {ys : List β}
    (h : xs.mapM f = .ok ys) {y : β} : y ∈ ys ↔ ∃ x ∈ xs, f x = .ok y := by
  rw [mapM_eq_ok_iff] at h
  induction h with
  | nil => simp
  | @cons x z xs zs hx _ ih =>
    rw [List.mem_cons, ih]
    constructor
    · rintro (rfl | ⟨x', hx', h'⟩)
      · exact ⟨x, List.mem_cons_self, hx⟩
      · exact ⟨x', List.mem_cons_of_mem x hx', h'⟩
    · rintro ⟨x', hx', h'⟩
      rcases List.mem_cons.1 hx' with rfl | hx'
      · left
        rw [hx] at h'
        exact (Except.ok.inj h').symm
      · exact Or.inr ⟨x', hx', h'⟩

theorem exists_of_mapM_eq_ok {f : α → Except ε β} {xs : List α} {ys : List β}
    (h : xs.mapM f = .ok ys) {x : α} (hx : x ∈ xs) : ∃ y ∈ ys, f x = .ok y := by
  induction mapM_eq_ok_iff.1 h with
  | nil => contradiction
  | @cons z y zs ys hy hys ih =>
    rcases List.mem_cons.1 hx with rfl | hx
    · exact ⟨y, List.mem_cons_self, hy⟩
    · obtain ⟨w, hw, hf⟩ := ih (mapM_eq_ok_iff.2 hys) hx
      exact ⟨w, List.mem_cons_of_mem y hw, hf⟩

theorem map_eq_map_of_mapM_eq_ok {γ : Type} {f : α → Except ε β} {g : β → γ} {k : α → γ}
    {xs : List α} {ys : List β} (hg : ∀ x ∈ xs, ∀ y, f x = .ok y → g y = k x)
    (h : xs.mapM f = .ok ys) : ys.map g = xs.map k := by
  induction mapM_eq_ok_iff.1 h with
  | nil => rfl
  | @cons x y xs ys hy hys ih =>
    rw [List.map_cons, List.map_cons, hg x List.mem_cons_self y hy,
      ih (fun z hz => hg z (List.mem_cons_of_mem x hz)) (mapM_eq_ok_iff.2 hys)]

theorem map_eq_of_mapM_eq_ok {f : α → Except ε β} {g : β → α} {xs : List α} {ys : List β}
    (hg : ∀ x ∈ xs, ∀ y, f x = .ok y → g y = x) (h : xs.mapM f = .ok ys) : ys.map g = xs :=
  (map_eq_map_of_mapM_eq_ok (k := id) hg h).trans (List.map_id xs)

theorem mapM_eq_ok_iff_getElem {f : α → Except ε β} {xs : List α} {ys : List β} :
    xs.mapM f = .ok ys ↔ ∃ h : ys.length = xs.length, ∀ i (hi : i < xs.length),
      f xs[i] = .ok ys[i] := by
  rw [mapM_eq_ok_iff, List.forall₂_iff_get]
  constructor
  · rintro ⟨hlen, h⟩
    exact ⟨hlen.symm, fun i hi => h i hi (hlen ▸ hi)⟩
  · rintro ⟨hlen, h⟩
    exact ⟨hlen.symm, fun i hi _ => h i hi⟩

/-- A list of requests fails with the failure of the first one that does. -/
theorem mapM_eq_error_iff {f : α → Except ε β} {xs : List α} {e : ε} :
    xs.mapM f = .error e ↔ ∃ i, ∃ h : i < xs.length, f xs[i] = .error e ∧
      ∀ j (hj : j < i), ∃ y, f xs[j] = .ok y := by
  induction xs with
  | nil =>
    refine ⟨fun h => by contradiction, ?_⟩
    rintro ⟨i, hi, -⟩
    contradiction
  | cons x xs ih =>
    rw [List.mapM_cons]
    cases hx : f x with
    | error e' =>
      change Except.error e' = _ ↔ _
      rw [Except.error.injEq]
      constructor
      · rintro rfl
        exact ⟨0, Nat.succ_pos _, hx, fun j hj => by contradiction⟩
      · rintro ⟨i, hi, he, hbefore⟩
        cases i with
        | zero => exact Except.error.inj (hx.symm.trans he)
        | succ i =>
          obtain ⟨y, hy⟩ := hbefore 0 (Nat.succ_pos i)
          have hy : f x = .ok y := hy
          rw [hx] at hy
          contradiction
    | ok y =>
      have hrun : (do let ys ← xs.mapM f; pure (y :: ys)) = .error e ↔ xs.mapM f = .error e := by
        cases xs.mapM f with
        | error e' => rfl
        | ok ys => simp [bind, Except.bind, pure, Except.pure]
      rw [ok_bind, hrun, ih]
      constructor
      · rintro ⟨i, hi, he, hbefore⟩
        refine ⟨i + 1, Nat.succ_lt_succ hi, he, fun j hj => ?_⟩
        cases j with
        | zero => exact ⟨y, hx⟩
        | succ j => exact hbefore j (Nat.lt_of_succ_lt_succ hj)
      · rintro ⟨i, hi, he, hbefore⟩
        cases i with
        | zero =>
          have he : f x = .error e := he
          rw [hx] at he
          contradiction
        | succ i =>
          exact ⟨i, Nat.lt_of_succ_lt_succ hi, he, fun j hj => hbefore (j + 1) (Nat.succ_lt_succ hj)⟩

theorem vector_mapM_eq_ok_map {n : Nat} {f : α → Except ε β} {g : α → β} {v : Vector α n}
    (h : ∀ x ∈ v.toList, f x = .ok (g x)) : v.mapM f = .ok (v.map g) := by
  have harray : Vector.toArray <$> v.mapM f = v.toArray.mapM f := Vector.toArray_mapM
  have hlist : Array.toList <$> v.toArray.mapM f = v.toList.mapM f := Array.toList_mapM
  rw [← harray, mapM_eq_ok_map h] at hlist
  cases hv : v.mapM f with
  | error e =>
    rw [hv] at hlist
    contradiction
  | ok w =>
    rw [hv] at hlist
    refine congrArg Except.ok (Vector.toList_inj.1 ?_)
    rw [Vector.toList_map]
    exact Except.ok.inj hlist

theorem ofFnM_eq_pure {m : Type → Type} [Monad m] [LawfulMonad m] {γ : Type} {n : Nat}
    {f : Fin n → m γ} {g : Fin n → γ} (h : ∀ i, f i = pure (g i)) :
    Vector.ofFnM f = pure (Vector.ofFn g) := by
  rw [show f = fun i => pure (g i) from funext h]
  exact Vector.ofFnM_pure

theorem ofFnM_eq_none {γ : Type} {n : Nat} {f : Fin n → Option γ} {i : Fin n} (h : f i = none) :
    Vector.ofFnM f = none := by
  induction n with
  | zero => exact i.elim0
  | succ n ih =>
    rw [Vector.ofFnM_succ]
    cases i using Fin.lastCases with
    | last => simp [h]
    | cast i =>
      rw [ih (f := fun i => f i.castSucc) h]
      rfl

theorem forM_eq_ok_iff {f : α → Except ε Unit} {xs : List α} :
    xs.forM f = .ok () ↔ ∀ x ∈ xs, f x = .ok () := by
  induction xs with
  | nil => exact iff_of_true rfl fun x hx => by contradiction
  | cons x xs ih =>
    rw [List.forM_eq_forM, List.forM_cons, bind_eq_ok_iff, List.forall_mem_cons, ← ih]
    exact ⟨fun ⟨_, hx, hxs⟩ => ⟨hx, hxs⟩, fun ⟨hx, hxs⟩ => ⟨(), hx, hxs⟩⟩

/-- A run that refuses the items in question fails at the first of them. -/
theorem forM_refuse {p : α → Prop} [DecidablePred p] {e : α → ε} (xs : List α) :
    (xs.forM fun x => if p x then Except.error (e x) else .ok ()) =
      (xs.find? fun x => p x).elim (.ok ()) fun x => .error (e x) := by
  induction xs with
  | nil => rfl
  | cons x xs ih =>
    rw [List.forM_eq_forM, List.forM_cons, ← List.forM_eq_forM, List.find?_cons]
    by_cases h : p x
    · rw [if_pos h, decide_eq_true h]
      rfl
    · rw [if_neg h, ok_bind, ih, decide_eq_false h]

theorem foldlM_eq_ok_foldl {f : σ → α → Except ε σ} {g : σ → α → σ} {xs : List α}
    {s : σ} (h : ∀ x ∈ xs, ∀ s, f s x = .ok (g s x)) : xs.foldlM f s = .ok (xs.foldl g s) := by
  induction xs generalizing s with
  | nil => rfl
  | cons x xs ih =>
    rw [List.foldlM_cons, h x List.mem_cons_self, ok_bind,
      ih fun y hy => h y (List.mem_cons_of_mem x hy)]
    rfl

/-- What every step keeps, a successful run keeps. -/
theorem foldlM_invariant {f : σ → α → Except ε σ} {motive : σ → Prop} {xs : List α} {s s' : σ}
    (hs : motive s) (hstep : ∀ s x s', x ∈ xs → motive s → f s x = .ok s' → motive s')
    (h : xs.foldlM f s = .ok s') : motive s' := by
  induction xs generalizing s with
  | nil => exact Except.ok.inj h ▸ hs
  | cons x xs ih =>
    rw [List.foldlM_cons] at h
    obtain ⟨s₁, h₁, h⟩ := bind_eq_ok_iff.1 h
    exact ih (hstep s x s₁ List.mem_cons_self hs h₁)
      (fun s y s' hy => hstep s y s' (List.mem_cons_of_mem x hy)) h

/-- Related states stay related, and where one run goes through so does the other, if each step
does. -/
theorem foldlM_simulation {f : σ → α → Except ε σ} {r : σ → σ → Prop} {xs : List α} {s s' t : σ}
    (hstep : ∀ s t x s', r s t → f s x = .ok s' → ∃ t', f t x = .ok t' ∧ r s' t') (hr : r s t)
    (h : xs.foldlM f s = .ok s') : ∃ t', xs.foldlM f t = .ok t' ∧ r s' t' := by
  induction xs generalizing s t with
  | nil =>
    obtain rfl := Except.ok.inj h
    exact ⟨t, rfl, hr⟩
  | cons x xs ih =>
    rw [List.foldlM_cons] at h
    obtain ⟨s₁, hs₁, h⟩ := bind_eq_ok_iff.1 h
    obtain ⟨t₁, ht₁, hr₁⟩ := hstep s t x s₁ hr hs₁
    rw [List.foldlM_cons, ht₁]
    exact ih hr₁ h

theorem exists_mapM_of_perm {f : α → Except ε β} {xs ys : List α} {us : List β} (hp : xs.Perm ys)
    (h : ys.mapM f = .ok us) : ∃ vs, xs.mapM f = .ok vs ∧ us.Perm vs := by
  obtain ⟨vs, hvs, hperm⟩ := List.perm_comp_forall₂ hp (mapM_eq_ok_iff.1 h)
  exact ⟨vs, mapM_eq_ok_iff.2 hvs, hperm.symm⟩

/-- Steps of which any two in question can be swapped go through in every order, with one result. -/
theorem foldlM_eq_ok_of_perm {f : σ → α → Except ε σ} {r : α → α → Prop} {xs ys : List α}
    {s s' : σ} (hsymm : ∀ a b, r a b → r b a)
    (hswap : ∀ s a b s₁ s₂, r a b → f s a = .ok s₁ → f s₁ b = .ok s₂ →
      ∃ s₁', f s b = .ok s₁' ∧ f s₁' a = .ok s₂)
    (hp : xs.Perm ys) (hpair : xs.Pairwise r) (h : xs.foldlM f s = .ok s') :
    ys.foldlM f s = .ok s' := by
  induction hp generalizing s with
  | nil => exact h
  | cons a _ ih =>
    rw [List.foldlM_cons] at h ⊢
    obtain ⟨s₁, h₁, h⟩ := bind_eq_ok_iff.1 h
    exact bind_eq_ok_iff.2 ⟨s₁, h₁, ih (List.pairwise_cons.1 hpair).2 h⟩
  | swap a b xs =>
    rw [List.foldlM_cons] at h ⊢
    obtain ⟨s₁, h₁, h⟩ := bind_eq_ok_iff.1 h
    rw [List.foldlM_cons] at h
    obtain ⟨s₂, h₂, h⟩ := bind_eq_ok_iff.1 h
    have hab := (List.pairwise_cons.1 hpair).1 a List.mem_cons_self
    obtain ⟨s₁', h₁', h₂'⟩ := hswap s b a s₁ s₂ hab h₁ h₂
    rw [h₁', ok_bind, List.foldlM_cons, h₂', ok_bind, h]
  | trans hp _ ih₁ ih₂ => exact ih₂ (hp.pairwise hpair (hsymm _ _)) (ih₁ hpair h)

/-! ## Runs that end alike -/

/-- The runs end in related results or in the same error, unless the first breaks off with one of
some errors. -/
inductive EndAlike {γ : Type} (broken : Set ε) (r : α → γ → Prop) :
    Except ε α → Except ε γ → Prop where
  | ok {a : α} {b : γ} : r a b → EndAlike broken r (.ok a) (.ok b)
  | error (e : ε) : EndAlike broken r (.error e) (.error e)
  | broken {e : ε} (y : Except ε γ) : e ∈ broken → EndAlike broken r (.error e) y

namespace EndAlike

variable {γ δ τ : Type} {broken : Set ε} {r : α → γ → Prop} {s : β → δ → Prop}

theorem of_eq {x y : Except ε α} (h : y = x) : EndAlike broken Eq x y := by
  subst h
  cases y with
  | error e => exact .error e
  | ok a => exact .ok rfl

theorem of_eq_map {x : Except ε α} {y : Except ε γ} {f : α → γ} (h : y = f <$> x) :
    EndAlike broken (fun a b => b = f a) x y := by
  subst h
  cases x with
  | error e => exact .error e
  | ok a => exact .ok rfl

theorem eq_ok {x y : Except ε α} {a : α} (h : EndAlike broken Eq x y) (hx : x = .ok a) :
    y = .ok a := by
  subst hx
  cases h with
  | ok h => rw [h]

theorem bind {x : Except ε α} {y : Except ε γ} {f : α → Except ε β} {g : γ → Except ε δ}
    (h : EndAlike broken r x y) (hfg : ∀ a b, r a b → EndAlike broken s (f a) (g b)) :
    EndAlike broken s (x >>= f) (y >>= g) := by
  cases h with
  | ok hab => exact hfg _ _ hab
  | error e => exact .error e
  | broken y he => exact .broken _ he

/-- Runs that begin alike end alike if they do so from there on. -/
theorem bind_same {x : Except ε α} {f : α → Except ε β} {g : α → Except ε δ}
    (hfg : ∀ a, EndAlike broken s (f a) (g a)) : EndAlike broken s (x >>= f) (x >>= g) :=
  (of_eq rfl).bind fun a _ hab => hab ▸ hfg a

theorem foldlM {f : σ → α → Except ε σ} {g : τ → γ → Except ε τ} {q : σ → τ → Prop}
    (hstep : ∀ a b s t, r a b → q s t → EndAlike broken q (f s a) (g t b)) {xs : List α}
    {ys : List γ} (h : List.Forall₂ r xs ys) {s : σ} {t : τ} (hst : q s t) :
    EndAlike broken q (xs.foldlM f s) (ys.foldlM g t) := by
  induction h generalizing s t with
  | nil => exact .ok hst
  | cons hab _ ih =>
    rw [List.foldlM_cons, List.foldlM_cons]
    exact (hstep _ _ _ _ hab hst).bind fun _ _ => ih

theorem mapM {f : α → Except ε β} {g : γ → Except ε δ} (hstep : ∀ a b, r a b →
    EndAlike broken s (f a) (g b)) {xs : List α} {ys : List γ} (h : List.Forall₂ r xs ys) :
    EndAlike broken (List.Forall₂ s) (xs.mapM f) (ys.mapM g) := by
  induction h with
  | nil => exact .ok .nil
  | cons hab _ ih =>
    rw [List.mapM_cons, List.mapM_cons]
    exact (hstep _ _ hab).bind fun _ _ hs => ih.bind fun _ _ hss => .ok (.cons hs hss)

theorem mapError {ε' : Type} {x : Except ε α} {y : Except ε γ} (h : EndAlike ∅ r x y)
    (f : ε → ε') : EndAlike ∅ r (x.mapError f) (y.mapError f) := by
  cases h with
  | ok h => exact .ok h
  | error e => exact .error (f e)
  | broken y he => exact absurd he (Set.notMem_empty _)

end EndAlike

/-! ## Failures beside results

A run may end in a result or an error of its own, or break off with a fault. -/

section Faultless

variable {φ : Type}

/-- A result or an error, reached without a fault. -/
def faultless (x : Except ε α) : ExceptT ε (Except φ) α := ExceptT.mk (.ok x)

theorem lift_ok_bind {x : Except φ α} {a : α} (h : x = .ok a) (f : α → ExceptT ε (Except φ) β) :
    ((x : ExceptT ε (Except φ) α) >>= f) = f a := by
  rw [h]
  rfl

theorem faultless_bind {x : Except ε α} {f : α → ExceptT ε (Except φ) β} {g : α → Except ε β}
    (h : ∀ a, f a = faultless (g a)) : (faultless x >>= f) = faultless (x >>= g) := by
  cases x with
  | error e => rfl
  | ok a => exact h a

theorem mapM_eq_faultless {f : α → ExceptT ε (Except φ) β} {g : α → Except ε β} {xs : List α}
    (h : ∀ x ∈ xs, f x = faultless (g x)) : xs.mapM f = faultless (xs.mapM g) := by
  induction xs with
  | nil => rfl
  | cons x xs ih =>
    rw [List.mapM_cons, List.mapM_cons, h x List.mem_cons_self,
      ih fun y hy => h y (List.mem_cons_of_mem x hy)]
    exact faultless_bind fun y => faultless_bind fun ys => rfl

end Faultless

end AdaptiveMesh
