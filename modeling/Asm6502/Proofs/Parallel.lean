import Mathlib.Data.List.Forall2
import Asm6502.Assembly.Run

/-!
# Two runs side by side

Two runs are compared step by step.  A step of one run agrees with a step of the other
if both succeed and their results are related, or both fail and their diagnostics are.
What all pairs of steps keep, two whole runs keep.
-/

namespace Asm6502

/-- Both computations succeed with related results, or both fail with related
diagnostics. -/
inductive Parallel {α β : Type} (fault : Diagnostic -> Diagnostic -> Prop)
    (result : α -> β -> Prop) : Except Diagnostic α -> Except Diagnostic β -> Prop where
  | ok {a : α} {b : β} : result a b -> Parallel fault result (.ok a) (.ok b)
  | error {d e : Diagnostic} : fault d e -> Parallel fault result (.error d) (.error e)

namespace Parallel

variable {α β γ δ : Type} {fault : Diagnostic -> Diagnostic -> Prop}
  {result : α -> β -> Prop} {final : γ -> δ -> Prop}

theorem imp {related : α -> β -> Prop} {x : Except Diagnostic α}
    {y : Except Diagnostic β} (h : Parallel fault result x y)
    (himp : ∀ a b, result a b -> related a b) : Parallel fault related x y := by
  cases h with
  | ok hab => exact .ok (himp _ _ hab)
  | error hde => exact .error hde

theorem bind {x : Except Diagnostic α} {y : Except Diagnostic β}
    {f : α -> Except Diagnostic γ} {g : β -> Except Diagnostic δ}
    (h : Parallel fault result x y)
    (hnext : ∀ a b, result a b -> Parallel fault final (f a) (g b)) :
    Parallel fault final (x >>= f) (y >>= g) := by
  cases h with
  | ok hab => exact hnext _ _ hab
  | error hde => exact .error hde

theorem map {x : Except Diagnostic α} {y : Except Diagnostic β} {f : α -> γ}
    {g : β -> δ} (h : Parallel fault result x y)
    (hnext : ∀ a b, result a b -> final (f a) (g b)) :
    Parallel fault final (x.map f) (y.map g) := by
  cases h with
  | ok hab => exact .ok (hnext _ _ hab)
  | error hde => exact .error hde

theorem ite {condition : Prop} [Decidable condition] {x x' : Except Diagnostic α}
    {y y' : Except Diagnostic β} (h : Parallel fault result x y)
    (h' : Parallel fault result x' y') :
    Parallel fault result (if condition then x else x')
      (if condition then y else y') := by
  split
  · exact h
  · exact h'

theorem refl {related : α -> α -> Prop} (hfault : ∀ d, fault d d)
    (hresult : ∀ a, related a a) (x : Except Diagnostic α) :
    Parallel fault related x x := by
  cases x with
  | ok a => exact .ok (hresult a)
  | error d => exact .error (hfault d)

end Parallel

/-!
## Sessions
-/

inductive Event.Paired (fault : Diagnostic -> Diagnostic -> Prop)
    (related : Statement -> Statement -> Prop) : Event -> Event -> Prop where
  | report {d e : Diagnostic} : fault d e -> Paired fault related (.report d) (.report e)
  | statement {s t : Statement} :
      related s t -> Paired fault related (.statement s) (.statement t)

namespace Session

variable {fault : Diagnostic -> Diagnostic -> Prop} {alike : Image -> Image -> Prop}
  {related : Statement -> Statement -> Prop} {options options' : Options}
  {session session' : Session}

structure Paired (fault : Diagnostic -> Diagnostic -> Prop)
    (alike : Image -> Image -> Prop) (session session' : Session) : Prop where
  image : alike session.image session'.image
  diagnostics : List.Forall₂ fault session.diagnostics.toList
    session'.diagnostics.toList

theorem Paired.report (h : Paired fault alike session session') {d e : Diagnostic}
    (hde : fault d e) : Paired fault alike (session.report d) (session'.report e) := by
  refine ⟨h.image, ?_⟩
  rw [Session.report, Session.report, Array.toList_push, Array.toList_push]
  exact List.rel_append h.diagnostics (.cons hde .nil)

/-- The statements of both runs have effects that keep the images alike, or both fail. -/
def InStep (fault : Diagnostic -> Diagnostic -> Prop) (alike : Image -> Image -> Prop)
    (related : Statement -> Statement -> Prop) (options options' : Options) : Prop :=
  ∀ {image image' : Image} {s t : Statement}, alike image image' -> related s t ->
    Parallel fault (fun e e' => alike (image.apply e) (image'.apply e'))
      (image.effect options.filler s) (image'.effect options'.filler t)

theorem Paired.handle (hstep : InStep fault alike related options options')
    (h : Paired fault alike session session') {e e' : Event}
    (he : e.Paired fault related e') :
    Paired fault alike (session.handle options e) (session'.handle options' e') := by
  cases he with
  | report hde => exact h.report hde
  | statement hst =>
      have heffects := hstep h.image hst
      unfold Session.handle Session.emit
      dsimp only
      generalize session.image.effect options.filler _ = x at heffects ⊢
      generalize session'.image.effect options'.filler _ = y at heffects ⊢
      cases heffects with
      | ok himage => exact ⟨himage, h.diagnostics⟩
      | error hde => exact h.report hde

theorem Paired.foldl_handle (hstep : InStep fault alike related options options')
    (h : Paired fault alike session session') {events events' : List Event}
    (hevents : List.Forall₂ (Event.Paired fault related) events events') :
    Paired fault alike (events.foldl (Session.handle options) session)
      (events'.foldl (Session.handle options') session') := by
  induction hevents generalizing session session' with
  | nil => exact h
  | cons he _ ih =>
      rw [List.foldl_cons, List.foldl_cons]
      exact ih (h.handle hstep he)

end Session
end Asm6502
