import OutputDescriptor.Proofs.Grammar.Descriptor
import OutputDescriptor.Proofs.Parser.Failure

/-!
The productions of the grammar stay among the tokens they begin in.

Some of them complain about a token that they consumed long before, such as a threshold once all
keys are counted; but that token, too, is one of those they began with.
-/

namespace OutputDescriptor.Parser

variable {whole : List Token}

namespace Stays

/-! ### Keys -/

theorem step : Stays whole Parser.step := by
  refine (expect _).bind' fun _ => next_bind fun token htoken => ?_
  have found (index : StepIndex) : Stays whole do
      let hardened ← Parser.accept .hardenedMarker
      return ((⟨index, hardened⟩ : Step), token) :=
    (accept _).bind' fun _ => .pure _
  split
  · exact (pure _).bind' found
  · split
    · exact (failAt htoken (by nofun)).bind' found
    · split
      · exact (failAt htoken (by nofun)).bind' found
      · exact (pure _).bind' found

/-- The token that comes with a step is one of those it was read from. -/
theorem step_bind {β : Type} {f : Step × Token → Parser β}
    (hf : ∀ step, ∀ token ∈ whole, Stays whole (f (step, token))) :
    Stays whole (Parser.step >>= f) := by
  refine step.bind fun found tokens rest h hparses => ?_
  obtain ⟨step, token⟩ := found
  obtain ⟨slash, mid, rfl, _⟩ := parses_step.mp hparses
  exact hf step token (h.subset (by simp))

theorem ofPath (path : Except PathError Path) : Stays whole (ofPath path) := by
  cases path with
  | ok path => exact .pure path
  | error error => exact .fail nofun

/-- A check that complains about a token that was consumed. -/
theorem check {c : Prop} [Decidable c] {α : Type} {p : Parser α} {token : Token}
    {reason : ParseReason} (htoken : token ∈ whole) (sound : reason ≠ .overrun)
    (hp : Stays whole p) :
    Stays whole (if c then Parser.failAt token reason >>= fun _ : PUnit => p else p) := by
  split
  · exact (failAt htoken sound).bind' fun _ => hp
  · exact hp

theorem originSteps (count : Nat) : Stays whole (originSteps count) := by
  induction count with
  | zero => exact .pure []
  | succ count ih =>
    refine (peekIs _).bind' fun ahead => ?_
    cases ahead with
    | false => exact .pure []
    | true =>
      refine step_bind fun step token htoken => ?_
      have more : Stays whole do return step :: (← Parser.originSteps count) :=
        ih.bind' fun _ => .pure _
      exact .check htoken nofun more

theorem origin : Stays whole origin := by
  refine (expect _).bind' fun _ => next_bind fun token htoken => ?_
  split
  · exact .failAt htoken nofun
  · split
    · refine get.bind' fun tokens => (originSteps _).bind' fun steps => ?_
      exact (expect _).bind' fun _ => .ofPath _
    · exact .failAt htoken nofun

theorem childSteps (afterWildcard : Bool) (count : Nat) :
    Stays whole (childSteps afterWildcard count) := by
  induction count generalizing afterWildcard with
  | zero => exact .pure []
  | succ count ih =>
    refine (peekIs _).bind' fun ahead => ?_
    cases ahead with
    | false => exact .pure []
    | true =>
      refine step_bind fun step token htoken => ?_
      have more : Stays whole do return step :: (← Parser.childSteps step.isWildcard count) :=
        (ih _).bind' fun _ => .pure _
      exact .check htoken nofun more

theorem children : Stays whole children :=
  get.bind' fun _ => (childSteps _ _).bind' fun _ => .ofPath _

theorem publicKey {token : Token} (htoken : token ∈ whole) : Stays whole (publicKey token) := by
  unfold Parser.publicKey
  split
  · exact .failAt htoken nofun
  · split
    · split
      · exact .pure _
      · exact .failAt htoken nofun
    · exact .failAt htoken nofun

theorem material {token : Token} (htoken : token ∈ whole) : Stays whole (material token) := by
  unfold Parser.material
  split
  · exact (publicKey htoken).map _
  · exact .pure _
  · exact children.map _
  · exact .failAt htoken nofun

theorem optionalOrigin : Stays whole optionalOrigin :=
  (peekIs _).bind' fun found =>
    match found with
    | true => origin.map _
    | false => .pure _

theorem key : Stays whole key := by
  rw [key_eq]
  exact optionalOrigin.bind' fun _ => next_bind fun _ htoken =>
    (material htoken).bind' fun _ => .pure _

/-! ### Trees -/

theorem scriptArgument : Stays whole scriptArgument :=
  expect_bind fun token htoken => by
    split
    · exact .pure _
    · exact .failAt htoken nofun

theorem addressArgument : Stays whole addressArgument :=
  expect_bind fun token htoken => by
    split
    · exact .pure _
    · exact .failAt htoken nofun

theorem multisigKeys (count : Nat) : Stays whole (multisigKeys count) := by
  induction count with
  | zero => exact .pure []
  | succ count ih =>
    refine (accept _).bind' fun found => ?_
    cases found with
    | false => exact .pure []
    | true => exact key.bind' fun _ => ih.bind' fun _ => .pure _

/-- A threshold out of range is found out when the keys are known, and reported where it stands. -/
theorem multisigArgument (sorted : Bool) : Stays whole (multisigArgument sorted) :=
  next_bind fun token htoken => by
    split
    · exact .failAt htoken nofun
    · next threshold _ =>
      refine get.bind' fun tokens => (multisigKeys _).bind' fun keys => ?_
      have ranged : Stays whole do
          if threshold = 0 ∨ keys.length < threshold then
            Parser.failAt token (.thresholdOutOfRange threshold keys.length)
          return Descriptor.multi threshold keys sorted :=
        .check htoken nofun (.pure _)
      dsimp only
      split
      · exact (fail (by nofun)).bind' fun _ => .check htoken (by nofun) ranged
      · exact .check htoken nofun ranged

theorem multi : Stays whole multi :=
  (peekIs _).bind' fun sorted => (multisigArgument sorted).call _

theorem insideWsh : Stays whole (atPlace .insideWsh) := by
  refine firstOf ?_ (by simp)
  simp only [alternativesAt, List.forall_mem_cons]
  exact ⟨(key.call _).map _, (key.call _).map _, multi, by simp⟩

theorem insideSh : Stays whole (atPlace .insideSh) := by
  refine firstOf ?_ (by simp)
  simp only [alternativesAt, List.forall_mem_cons]
  exact ⟨(key.call _).map _, (key.call _).map _, (key.call _).map _, (insideWsh.call _).map _,
    multi, by simp⟩

end Stays

end OutputDescriptor.Parser
