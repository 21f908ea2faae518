import MovingAsymptotes.Proofs.Reduction.Distribution
import MovingAsymptotes.Proofs.Reduction.Replies

/-!
# Groups that come to an end

The ranks of a group may run different programs, wait for different reductions and contribute buffers of
any length. If the group comes to an end nevertheless, all ranks have taken part in the same number of
reductions: none has ended while another waited. So the last reductions of all ranks are one.

* `GroupEnds`: programs of a group and the outcomes they come to.
* `groupEnds_of_outcomes`: every group that does not get stuck is an instance.
* `GroupEnds.ends`: each rank of it gets fair replies.
* `GroupEnds.last`: the last reductions of all ranks are one.
-/

namespace MovingAsymptotes

variable {α ε ε' : Type} {R : Nat}

/-- The replies of a group are fair to each of its ranks. -/
lemma Replies.fair_combine (op : Reduction) {length : Fin (R + 1) → Nat} (own : ∀ r, Vector ℝ (length r))
    (r : Fin (R + 1)) : fair (length r) op (own r) (op.combine (length r) (own 0).toArray
      (List.ofFn fun q : Fin R => (own q.succ).toArray)) := by
  intro hmax v hv j
  let buffers : Fin (R + 1) → Array ℝ := fun q => (own q).toArray
  have combined : op.combine (length r) (buffers 0) (List.ofFn fun q : Fin R => buffers q.succ) = .ok v := hv
  obtain ⟨hs, rfl⟩ := Reduction.eq_combined_of_combine combined
  rw [hmax]
  exact (Reduction.entry_combined_max_le_iff (fun q => ⟨buffers q, hs q⟩) j _).1 (le_refl _) r

namespace Program

def Waiting.program {β : Type} (w : Waiting α ε β) : Program α ε β := .reduce w.op w.buffer w.next

/-- The reduction within a program that passes it on. -/
def Waiting.within {β γ : Type} (w : Waiting α ε β) (F : Program α ε β → Program α ε' γ) :
    Waiting α ε' γ :=
  { w with next := fun reply => F (w.next reply) }

def Waiting.scalar (op : Reduction) (a : α) : Waiting α (Cause α) α where
  length := 1
  op := op
  buffer := Vector.singleton a
  next
    | .ok combined => .pure combined[first 0]
    | .error fault => .fail (.collective fault)

section Shapes

variable {B : Type}

lemma Waiting.program_injective {w v : Waiting α ε B} (h : w.program = v.program) : w = v := by
  obtain ⟨k, op, buffer, next⟩ := w
  obtain ⟨l, op', buffer', next'⟩ := v
  unfold Waiting.program at h
  cases h
  rfl

lemma Waiting.program_ne (w : Waiting α ε B) (o : Outcome ε B) : w.program ≠ o.program := by
  cases o <;> exact nofun

lemma ended_or_waits (p : Program α ε B) :
    (∃ o : Outcome ε B, p = o.program) ∨ ∃ w : Waiting α ε B, p = w.program := by
  cases p with
  | pure b => exact Or.inl ⟨.done b, rfl⟩
  | fail e => exact Or.inl ⟨.failed e, rfl⟩
  | unfinished => exact Or.inl ⟨.unfinished, rfl⟩
  | reduce op buffer next => exact Or.inr ⟨⟨_, op, buffer, next⟩, rfl⟩

lemma eq_program_of_outcome? {p : Program α ε B} {o : Outcome ε B} (h : p.outcome? = some o) :
    p = o.program := by
  cases p with
  | reduce => cases h
  | _ =>
    cases h
    rfl

lemma eq_program_of_waiting? {p : Program α ε B} {w : Waiting α ε B} (h : p.waiting? = some w) :
    p = w.program := by
  cases p with
  | reduce =>
    cases h
    rfl
  | _ => cases h

lemma reduceScalar_eq (op : Reduction) (a : α) : reduceScalar op a = (Waiting.scalar op a).program := by
  refine congrArg (reduce op #v[a]) (funext fun reply => ?_)
  cases reply <;> rfl

/-- A reduction that a program followed by another waits for belongs to the one or to the other. -/
lemma bind_eq_program {C : Type} {p : Program α ε B} {f : B → Program α ε C} {w : Waiting α ε C}
    (h : p >>= f = w.program) :
    (∃ v : Waiting α ε B, p = v.program ∧ w = v.within (· >>= f)) ∨
      ∃ b, p = .pure b ∧ f b = w.program := by
  cases p with
  | pure b => exact Or.inr ⟨b, rfl, h⟩
  | fail e => exact absurd h.symm (w.program_ne (.failed e))
  | unfinished => exact absurd h.symm (w.program_ne .unfinished)
  | reduce op buffer next =>
    let v : Waiting α ε B := ⟨_, op, buffer, next⟩
    exact Or.inl ⟨v, rfl, (Waiting.program_injective (w := v.within (· >>= f)) h).symm⟩

/-- What puts a program into another leaves one that has ended ended. -/
lemma exists_map {C : Type} (o : Outcome ε B) (f : B → C) :
    ∃ o' : Outcome ε C, ((o.program : Program α ε B) >>= fun b => .pure (f b)) = o'.program := by
  cases o with
  | done b => exact ⟨.done (f b), rfl⟩
  | failed e => exact ⟨.failed e, rfl⟩
  | unfinished => exact ⟨.unfinished, rfl⟩

lemma exists_mapError (o : Outcome ε B) (f : ε → ε') :
    ∃ o' : Outcome ε' B, (o.program : Program α ε B).mapError f = o'.program := by
  cases o with
  | done b => exact ⟨.done b, rfl⟩
  | failed e => exact ⟨.failed (f e), rfl⟩
  | unfinished => exact ⟨.unfinished, rfl⟩

lemma exists_attempt (o : Outcome ε B) :
    ∃ o' : Outcome ε' (Except ε B), (o.program : Program α ε B).attempt = o'.program := by
  cases o with
  | done b => exact ⟨.done (.ok b), rfl⟩
  | failed e => exact ⟨.done (.error e), rfl⟩
  | unfinished => exact ⟨.unfinished, rfl⟩

/-- A program that takes part in one reduction. -/
def Single (p : Program α ε B) : Prop :=
  ∃ w : Waiting α ε B, p = w.program ∧ ∀ reply, ∃ o : Outcome ε B, w.next reply = o.program

lemma Single.next_eq {p : Program α ε B} (h : p.Single) {w : Waiting α ε B} (hw : p = w.program)
    (reply : Except CollectiveFault (Vector α w.length)) : ∃ o : Outcome ε B, w.next reply = o.program := by
  obtain ⟨v, hv, hnext⟩ := h
  obtain rfl := Waiting.program_injective (hv.symm.trans hw)
  exact hnext reply

lemma single_reduceScalar (op : Reduction) (a : α) : (reduceScalar op a).Single := by
  refine ⟨.scalar op a, reduceScalar_eq op a, fun reply => ?_⟩
  cases reply with
  | ok v => exact ⟨.done (show Vector α 1 from v)[0], rfl⟩
  | error fault => exact ⟨.failed (.collective fault), rfl⟩

lemma Single.mapError {p : Program α ε B} (h : p.Single) (f : ε → ε') : (p.mapError f).Single := by
  obtain ⟨w, rfl, hw⟩ := h
  refine ⟨w.within (·.mapError f), rfl, fun reply => ?_⟩
  obtain ⟨o, ho⟩ := hw reply
  obtain ⟨o', ho'⟩ := exists_mapError o f
  exact ⟨o', (congrArg (Program.mapError f) ho).trans ho'⟩

lemma Single.map {C : Type} {p : Program α ε B} (h : p.Single) (f : B → C) :
    (p >>= fun b => .pure (f b)).Single := by
  obtain ⟨w, rfl, hw⟩ := h
  refine ⟨w.within (· >>= fun b => .pure (f b)), rfl, fun reply => ?_⟩
  obtain ⟨o, ho⟩ := hw reply
  obtain ⟨o', ho'⟩ := exists_map o f
  exact ⟨o', (congrArg (fun q : Program α ε B => q >>= fun b => .pure (f b)) ho).trans ho'⟩

/-- What ends with a reduction has no result without one. -/
lemma Single.bind_ne_pure {C : Type} {p : Program α ε B} {f : B → Program α ε C} (hf : ∀ b, (f b).Single)
    {c : C} : p >>= f ≠ .pure c := by
  intro h
  cases p with
  | pure b =>
    obtain ⟨w, hw, -⟩ := hf b
    exact w.program_ne (.done c) (hw.symm.trans h)
  | _ => cases h

end Shapes

variable [Scalar α] {β γ : Fin (R + 1) → Type}

/-- How rank `r` goes on when all ranks wait. -/
def resumed (w : ∀ r, Waiting α ε (β r)) (r : Fin (R + 1)) : Program α ε (β r) :=
  (w r).resume (w (first R)).buffer.toArray (List.ofFn fun q : Fin R => (w q.succ).buffer.toArray)

/-- The programs of a group come to the given outcomes. -/
inductive GroupEnds : (∀ r, Program α ε (β r)) → (∀ r, Outcome ε (β r)) → Prop
  /-- All programs are over. -/
  | ended {p o} : (∀ r, p r = (o r).program) → GroupEnds p o
  /-- All programs wait, each for a reduction of its own. -/
  | reduce {p o} (w : ∀ r, Waiting α ε (β r)) : (∀ r, p r = (w r).program) →
    GroupEnds (resumed w) o → GroupEnds p o

variable {p : ∀ r, Program α ε (β r)} {o : ∀ r, Outcome ε (β r)}

lemma GroupEnds.all_ended (h : GroupEnds p o) {r : Fin (R + 1)} (o' : Outcome ε (β r))
    (hr : p r = o'.program) : ∀ r, p r = (o r).program := by
  cases h with
  | ended hp => exact hp
  | reduce w hp _ => exact absurd ((hp r).symm.trans hr) ((w r).program_ne o')

/-- What comes to an end within programs that pass reductions on comes to an end itself. -/
theorem GroupEnds.of_lift {o' : ∀ r, Outcome ε' (γ r)} (F : ∀ r, Program α ε (β r) → Program α ε' (γ r))
    (hF : ∀ r (w : Waiting α ε (β r)), F r w.program = (w.within (F r)).program)
    (hover : ∀ r (o : Outcome ε (β r)), ∃ o' : Outcome ε' (γ r), F r o.program = o'.program)
    (h : GroupEnds (fun r => F r (p r)) o') :
    ∃ o, GroupEnds p o ∧ ∀ r, F r (o r).program = (o' r).program := by
  generalize hq : (fun r => F r (p r)) = q at h
  induction h generalizing p with
  | ended hend =>
    have ended : ∀ r, ∃ o : Outcome ε (β r), p r = o.program := by
      intro r
      refine (p r).ended_or_waits.resolve_right ?_
      rintro ⟨w, hw⟩
      have hr := (congrFun hq r).trans (hend r)
      rw [hw, hF] at hr
      exact (w.within (F r)).program_ne _ hr
    choose o ho using ended
    refine ⟨o, .ended ho, fun r => ?_⟩
    rw [← ho, ← hend, ← hq]
  | reduce w hwait _ ih =>
    have waits : ∀ r, ∃ v : Waiting α ε (β r), p r = v.program ∧ w r = v.within (F r) := by
      intro r
      have hr := (congrFun hq r).trans (hwait r)
      obtain ⟨o, ho⟩ | ⟨v, hv⟩ := (p r).ended_or_waits
      · obtain ⟨o', ho'⟩ := hover r o
        rw [ho, ho'] at hr
        exact absurd hr.symm ((w r).program_ne o')
      · rw [hv, hF] at hr
        exact ⟨v, hv, Waiting.program_injective hr.symm⟩
    choose v hv hw using waits
    obtain rfl : w = fun r => (v r).within (F r) := funext hw
    obtain ⟨o, ho, hout⟩ := ih (p := resumed v) rfl
    exact ⟨o, .reduce v hv ho, hout⟩

section Results

variable {b : ∀ r, β r}

/-- If only results are passed on as results, all ranks have results. -/
lemma GroupEnds.of_lift_done {c : ∀ r, γ r} {Q : ∀ r, β r → Prop}
    (F : ∀ r, Program α ε (β r) → Program α ε' (γ r))
    (hF : ∀ r (w : Waiting α ε (β r)), F r w.program = (w.within (F r)).program)
    (hover : ∀ r (o : Outcome ε (β r)), ∃ o' : Outcome ε' (γ r), F r o.program = o'.program)
    (hdone : ∀ r (o : Outcome ε (β r)), F r o.program = .pure (c r) → ∃ b, o = .done b ∧ Q r b)
    (h : GroupEnds (fun r => F r (p r)) fun r => .done (c r)) :
    ∃ b : ∀ r, β r, GroupEnds p (fun r => .done (b r)) ∧ ∀ r, Q r (b r) := by
  obtain ⟨o, ho, hout⟩ := GroupEnds.of_lift F hF hover h
  choose b hb hq using fun r => hdone r (o r) (hout r)
  rw [funext hb] at ho
  exact ⟨b, ho, hq⟩

lemma GroupEnds.of_map {f : ∀ r, β r → γ r} {c : ∀ r, γ r}
    (h : GroupEnds (fun r => p r >>= fun b => .pure (f r b)) fun r => .done (c r)) :
    ∃ b : ∀ r, β r, GroupEnds p (fun r => .done (b r)) ∧ ∀ r, f r (b r) = c r := by
  refine GroupEnds.of_lift_done (Q := fun r b => f r b = c r) (fun r q => q >>= fun b => .pure (f r b))
    (fun _ _ => rfl) (fun r o => exists_map o (f r)) (fun r o ho => ?_) h
  cases o with
  | done b => exact ⟨b, rfl, Program.pure.inj ho⟩
  | failed e => cases ho
  | unfinished => cases ho

lemma GroupEnds.of_mapError {f : Fin (R + 1) → ε → ε'}
    (h : GroupEnds (fun r => (p r).mapError (f r)) fun r => .done (b r)) :
    GroupEnds p fun r => .done (b r) := by
  obtain ⟨c, hc, hcb⟩ := GroupEnds.of_lift_done (Q := fun r c => c = b r) (fun r q => q.mapError (f r))
    (fun _ _ => rfl) (fun r o => exists_mapError o (f r)) (fun r o ho => by
      cases o with
      | done c => exact ⟨c, rfl, Program.pure.inj ho⟩
      | failed e => cases ho
      | unfinished => cases ho) h
  rwa [funext hcb] at hc

lemma GroupEnds.of_attempt
    (h : GroupEnds (fun r => ((p r).attempt : Program α ε' (Except ε (β r)))) fun r => .done (.ok (b r))) :
    GroupEnds p fun r => .done (b r) := by
  obtain ⟨c, hc, hcb⟩ := GroupEnds.of_lift_done (Q := fun r c => c = b r) (fun r q => q.attempt)
    (fun _ _ => rfl) (fun r o => exists_attempt o) (fun r o ho => by
      cases o with
      | done c => exact ⟨c, rfl, Except.ok.inj (Program.pure.inj ho)⟩
      | failed e => cases Program.pure.inj ho
      | unfinished => cases ho) h
  rwa [funext hcb] at hc

end Results

section Outcomes

variable {B : Type}

omit [Scalar α] in
lemma exists_of_mapM_ofFn {A C : Type} {k : Nat} {f : A → Option C} {u : Fin k → A} {l : List C}
    (h : (List.ofFn u).mapM f = some l) : ∃ v, l = List.ofFn v ∧ ∀ i, f (u i) = some (v i) := by
  induction k generalizing l with
  | zero =>
    cases h
    exact ⟨nofun, rfl, nofun⟩
  | succ k ih =>
    rw [List.ofFn_succ, List.mapM_cons] at h
    cases hc : f (u 0) with
    | none =>
      rw [hc] at h
      cases h
    | some c =>
      cases hl : (List.ofFn fun i : Fin k => u i.succ).mapM f with
      | none =>
        rw [hc, hl] at h
        cases h
      | some later =>
        obtain ⟨v, rfl, hv⟩ := ih hl
        rw [hc, hl] at h
        cases h
        exact ⟨Fin.cons c v, by rw [List.ofFn_cons], Fin.cases hc hv⟩

/-- A group that does not get stuck comes to its outcomes. -/
lemma groupEnds_of_group {p : Fin (R + 1) → Program α ε B} {o : Fin (R + 1) → Outcome ε B}
    (h : (p 0).group (List.ofFn fun r : Fin R => p r.succ) = some (List.ofFn o)) :
    GroupEnds (β := fun _ => B) p o := by
  -- The induction is on the program of rank zero, which the others keep step with.
  have ended : ∀ (o₀ : Outcome ε B) {p : Fin (R + 1) → Program α ε B}, p 0 = o₀.program →
      ((List.ofFn fun r : Fin R => p r.succ).mapM outcome?).map (o₀ :: ·) = some (List.ofFn o) →
      GroupEnds (β := fun _ => B) p o := by
    intro o₀ p h₀ h
    obtain ⟨later, hlater, hcons⟩ := Option.map_eq_some_iff.1 h
    obtain ⟨v, rfl, hv⟩ := exists_of_mapM_ofFn hlater
    rw [List.ofFn_succ, List.cons.injEq] at hcons
    obtain ⟨rfl, htail⟩ := hcons
    refine .ended (Fin.cases h₀ fun r => ?_)
    rw [← congrFun (List.ofFn_injective htail) r]
    exact eq_program_of_outcome? (hv r)
  generalize h₀ : p 0 = q at h
  induction q generalizing p with
  | pure b => exact ended (.done b) h₀ h
  | fail e => exact ended (.failed e) h₀ h
  | unfinished => exact ended .unfinished h₀ h
  | @reduce k op buffer next ih =>
    unfold group at h
    split at h
    · cases h
    · next ws hws =>
      obtain ⟨v, rfl, hv⟩ := exists_of_mapM_ofFn hws
      simp only [List.map_ofFn] at h
      let w : Fin (R + 1) → Waiting α ε B := Fin.cons ⟨k, op, buffer, next⟩ v
      refine .reduce w (Fin.cases h₀ fun r => eq_program_of_waiting? (hv r)) ?_
      exact ih _ (p := resumed w) rfl h

/-- A group that does not get stuck and whose ranks all have results. -/
theorem groupEnds_of_outcomes {b : ∀ r, β r}
    (h : outcomes p = some (List.ofFn fun r => .done ⟨r, b r⟩)) :
    GroupEnds p fun r => .done (b r) := by
  obtain ⟨c, hc, htag⟩ := GroupEnds.of_map (γ := fun _ => Σ r, β r) (f := fun r b => ⟨r, b⟩)
    (groupEnds_of_group (p := tagged p) h)
  have same : c = b := funext fun r => eq_of_heq (Sigma.mk.inj (htag r)).2
  rwa [same] at hc

end Outcomes

/-- If each rank ends with a single reduction of its own, these reductions are one. -/
theorem GroupEnds.last {G : ∀ r, β r → Program α ε (γ r)} {c : ∀ r, γ r}
    (hG : ∀ r b, (G r b).Single) (h : GroupEnds (fun r => p r >>= G r) fun r => .done (c r)) :
    ∃ b : ∀ r, β r, GroupEnds p (fun r => .done (b r)) ∧
      GroupEnds (fun r => G r (b r)) fun r => .done (c r) := by
  generalize hq : (fun r => p r >>= G r) = q at h
  generalize hc : (fun r => Outcome.done (c r)) = o at h
  induction h generalizing p with
  | ended hend =>
    subst hc
    exact absurd ((congrFun hq 0).trans (hend 0)) (Single.bind_ne_pure (hG 0))
  | reduce w hwait hend ih =>
    subst hc
    have shape := fun r => bind_eq_program ((congrFun hq r).trans (hwait r))
    by_cases inner : ∀ r, ∃ v : Waiting α ε (β r), p r = v.program ∧ w r = v.within (· >>= G r)
    · choose v hv hw using inner
      obtain rfl : w = fun r => (v r).within (· >>= G r) := funext hw
      obtain ⟨b, hb, hlast⟩ := ih (p := resumed v) rfl rfl
      exact ⟨b, .reduce v hv hb, hlast⟩
    · -- Some rank is in its last reduction and ends with it, so all ranks do.
      obtain ⟨r₀, hr₀⟩ := not_forall.1 inner
      obtain ⟨b₀, -, hb₀⟩ := (shape r₀).resolve_left hr₀
      obtain ⟨o₀, ho₀⟩ := (hG r₀ b₀).next_eq hb₀ _
      have all := hend.all_ended (r := r₀) o₀ ho₀
      have outer : ∀ r, ∃ b, p r = .pure b ∧ G r b = (w r).program := by
        refine fun r => (shape r).resolve_left ?_
        rintro ⟨v, -, hw⟩
        have hr := all r
        unfold resumed at hr
        rw [hw] at hr
        exact Single.bind_ne_pure (hG r) hr
      choose b hb hlast using outer
      exact ⟨b, .ended hb, .reduce w hlast hend⟩

omit [Scalar α] in
lemma ends_program {A : Replies α} {B : Type} (o : Outcome ε B) : (o.program : Program α ε B).Ends A o := by
  cases o with
  | done b => exact .pure
  | failed e => exact .fail
  | unfinished => exact .unfinished

lemma GroupEnds.ends_any (h : GroupEnds p o) (r : Fin (R + 1)) : (p r).Ends .any (o r) := by
  induction h with
  | ended hp =>
    rw [hp]
    exact ends_program _
  | reduce w hp _ ih =>
    rw [hp]
    exact .reduce trivial ih

section Reals

variable {p : ∀ r, Program ℝ ε (β r)} {o : ∀ r, Outcome ε (β r)}

/-- Each rank of a group gets fair replies. -/
theorem GroupEnds.ends (h : GroupEnds p o) (r : Fin (R + 1)) : (p r).Ends .fair (o r) := by
  induction h with
  | ended hp =>
    rw [hp]
    exact ends_program _
  | reduce w hp _ ih =>
    rw [hp]
    exact .reduce (Replies.fair_combine (w r).op (fun q => (w q).buffer) r) ih

/-- The largest scalar of a group is a bound of all, and the least one. -/
lemma GroupEnds.maxScalar {a c : Fin (R + 1) → ℝ}
    (h : GroupEnds (fun r => reduceScalar .max (a r)) fun r => .done (c r)) (r : Fin (R + 1)) (limit : ℝ) :
    c r ≤ limit ↔ ∀ q, a q ≤ limit := by
  cases h with
  | ended hend => cases hend 0
  | reduce w hwait hend =>
    obtain rfl : w = fun q => Waiting.scalar .max (a q) := funext fun q =>
      Waiting.program_injective ((hwait q).symm.trans (reduceScalar_eq .max (a q)))
    have sent := Reduction.max.combine_ofFn fun q => #v[a q]
    rw [List.map_ofFn] at sent
    have answer : resumed (fun q => Waiting.scalar .max (a q)) r =
        .pure (Reduction.max.combined fun q => #v[a q])[(0 : Fin 1)] :=
      congrArg (Waiting.scalar .max (a r)).next sent
    have hc := answer.symm.trans (hend.all_ended (.done _) answer r)
    rw [← Program.pure.inj hc]
    exact Reduction.entry_combined_max_le_iff (fun q => #v[a q]) 0 limit

end Reals

end Program

end MovingAsymptotes
