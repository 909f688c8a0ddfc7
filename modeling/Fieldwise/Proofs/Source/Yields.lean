import Fieldwise.Source.Parser

/-!
# What readers yield

`Parser.Yields n p Q` says what is known of each result of the reader `p` when it begins with `n` as
the next unused key: `Q b x` for a result `x` where `b` is the next unused key after it. There is
one rule for each way to put readers together.

Most readers of single tokens use no key: they are `Quiet`, and are passed over by `Yields.skip`.
-/

namespace Fieldwise.Parser

variable {α β : Type} {n : Nat}

/-- All results of a reader that begins with this unused key satisfy a condition. -/
def Yields (n : Nat) (p : Parser α) (Q : Nat → α → Prop) : Prop :=
  ∀ s x s', s.next = n → p.run s = .ok (x, s') → Q s'.next x

/-- A reader that uses no key. -/
def Quiet (p : Parser α) : Prop := ∀ n, Yields n p fun b _ => b = n

namespace Yields

theorem mono {p : Parser α} {P Q : Nat → α → Prop} (h : Yields n p P) (hq : ∀ b x, P b x → Q b x) :
    Yields n p Q := fun s x s' hs hr => hq _ _ (h s x s' hs hr)

theorem pure {x : α} {Q : Nat → α → Prop} (h : Q n x) : Yields n (pure x : Parser α) Q := by
  intro s y s' hs hr
  cases hr
  exact hs ▸ h

theorem fail {Q : Nat → α → Prop} : Yields n (Parser.fail : Parser α) Q := by
  intro s y s' hs hr
  cases hr

theorem bind {p : Parser α} {f : α → Parser β} {P : Nat → α → Prop} {Q : Nat → β → Prop}
    (hp : Yields n p P) (hf : ∀ b x, P b x → Yields b (f x) Q) : Yields n (p >>= f) Q := by
  intro s y s' hs hr
  rw [StateT.run_bind] at hr
  cases h : p.run s with
  | error e =>
    rw [h] at hr
    cases hr
  | ok r =>
    rw [h] at hr
    exact hf _ _ (hp s r.1 r.2 hs h) r.2 y s' rfl hr

/-- A quiet reader in front of another one. -/
theorem skip {p : Parser α} {f : α → Parser β} {Q : Nat → β → Prop} (hp : Quiet p)
    (hf : ∀ x, Yields n (f x) Q) : Yields n (p >>= f) Q :=
  (hp n).bind fun b x hb => by
    subst hb
    exact hf x

/-- A quiet reader after another one. -/
theorem seqLeft {p : Parser α} {q : Parser β} {Q : Nat → α → Prop} (hp : Yields n p Q)
    (hq : Quiet q) : Yields n (p <* q) Q := by
  rw [seqLeft_eq_bind]
  exact hp.bind fun b x hx => .skip hq fun _ => .pure hx

theorem get_bind {f : ParserState → Parser β} {Q : Nat → β → Prop}
    (hf : ∀ s : ParserState, s.next = n → Yields n (f s) Q) : Yields n (get >>= f) Q := by
  intro s y s' hs hr
  exact hf s hs s y s' hs hr

theorem set_bind {t : ParserState} {f : PUnit → Parser β} {Q : Nat → β → Prop}
    (hf : Yields t.next (f ⟨⟩) Q) : Yields n (set t >>= f) Q := by
  intro s y s' hs hr
  exact hf t y s' rfl hr

theorem set {t : ParserState} {Q : Nat → PUnit → Prop} (h : Q t.next ⟨⟩) :
    Yields n (set t : Parser PUnit) Q := by
  intro s y s' hs hr
  cases hr
  exact h

theorem ite {c : Prop} [Decidable c] {p q : Parser α} {Q : Nat → α → Prop}
    (hp : c → Yields n p Q) (hq : ¬ c → Yields n q Q) : Yields n (if c then p else q) Q := by
  split
  · exact hp ‹_›
  · exact hq ‹_›

/-- A repetition keeps what each step keeps. -/
theorem iterate {step : α → Parser (Option α)} {I : Nat → α → Prop}
    (hstep : ∀ b x, I b x → Yields b (step x) fun c o =>
      match o with
      | some y => I c y
      | none => I c x) (count : Nat) {a : α} (ha : I n a) :
    Yields n (Parser.iterate step count a) I := by
  induction count generalizing n a with
  | zero => exact pure ha
  | succ count ih =>
    refine (hstep n a ha).bind fun b o ho => ?_
    cases o with
    | none => exact pure ho
    | some y => exact ih ho

theorem loop {step : α → Parser (Option α)} {I : Nat → α → Prop}
    (hstep : ∀ b x, I b x → Yields b (step x) fun c o =>
      match o with
      | some y => I c y
      | none => I c x) {a : α} (ha : I n a) : Yields n (Parser.loop step a) I :=
  get_bind fun _ _ => iterate hstep _ ha

end Yields

/-! ### Readers of tokens -/

namespace Quiet

theorem pure (x : α) : Quiet (Pure.pure x : Parser α) := fun _ => .pure rfl

theorem fail : Quiet (Parser.fail : Parser α) := fun _ => .fail

theorem bind {p : Parser α} {f : α → Parser β} (hp : Quiet p) (hf : ∀ x, Quiet (f x)) :
    Quiet (p >>= f) := fun n => .skip hp fun x => hf x n

theorem ite {c : Prop} [Decidable c] {p q : Parser α} (hp : Quiet p) (hq : Quiet q) :
    Quiet (if c then p else q) := fun n => .ite (fun _ => hp n) fun _ => hq n

theorem get : Quiet (MonadState.get : Parser ParserState) := fun _ _ _ _ hs hr => by
  cases hr
  exact hs

theorem peek : Quiet Parser.peek := get.bind fun _ => pure _

theorem peekSecond : Quiet Parser.peekSecond := get.bind fun _ => pure _

theorem peekLine : Quiet Parser.peekLine := get.bind fun _ => pure _

theorem at? (text : String) : Quiet (Parser.at? text) := peek.bind fun _ => pure _

theorem atKeyword? (word : String) : Quiet (Parser.atKeyword? word) := peek.bind fun _ => pure _

theorem loop {step : α → Parser (Option α)} (h : ∀ x, Quiet (step x)) (a : α) :
    Quiet (Parser.loop step a) := fun n =>
  Yields.loop (I := fun b _ => b = n) (fun b x hb => (h x b).mono fun c o hc => by
    cases o <;> exact hc.trans hb) rfl

theorem declareName (name : String) (isType : Bool) : Quiet (Parser.declareName name isType) := by
  intro n
  refine .get_bind fun s hs => ?_
  split
  · exact .fail
  · refine .ite (fun _ => .fail) fun _ => .set hs

theorem pushScope : Quiet Parser.pushScope := fun _ _ _ _ hs hr => by
  cases hr
  exact hs

theorem advance : Quiet Parser.advance := by
  intro n
  refine .get_bind fun s hs => ?_
  split
  · exact .fail
  · dsimp only
    refine .ite (fun _ => ?_) fun _ => ?_
    · refine .set_bind (.pure ?_)
      split <;> exact hs
    · refine .ite (fun _ => ?_) fun _ => ?_
      · split
        · exact .set_bind (.pure hs)
        · exact .fail
      · exact .set_bind (.pure hs)

theorem accept (text : String) : Quiet (Parser.accept text) :=
  (at? text).bind fun _ => ite (advance.bind fun _ => pure _) (pure _)

theorem expect (text : String) : Quiet (Parser.expect text) :=
  (accept text).bind fun _ => ite (pure _) fail

theorem acceptKeyword (word : String) : Quiet (Parser.acceptKeyword word) :=
  (atKeyword? word).bind fun _ => ite (advance.bind fun _ => pure _) (pure _)

theorem plainName : Quiet Parser.plainName := by
  refine get.bind fun s => advance.bind fun l => ?_
  split
  · exact fun n => .ite (fun _ => .fail) fun _ => .pure rfl
  · exact fail

end Quiet

end Fieldwise.Parser
