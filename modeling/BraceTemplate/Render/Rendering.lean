import BraceTemplate.Render.Context

/-!
# Renderings

A `Rendering` turns the context it starts from into a result and the context it leaves, which is
there after an error, too. The answer `none` says that more calls were open at once than the
budget for them allows; it says nothing about the template.
-/

namespace BraceTemplate

/-- A computation on the context that ends in an `α` or in an error. -/
def Rendering (α : Type) : Type := Context → Option (Except RenderError α × Context)

namespace Rendering

variable {α β : Type}

def succeed (a : α) : Rendering α := fun ctx => some (.ok a, ctx)

def throw (e : RenderError) : Rendering α := fun ctx => some (.error e, ctx)

/-- The budget of open calls is used up. -/
def exhausted : Rendering α := fun _ => none

/-- Goes on with `f` after a success; an error ends the whole. -/
def andThen (p : Rendering α) (f : α → Rendering β) : Rendering β := fun ctx =>
  match p ctx with
  | none => none
  | some (.error e, ctx') => some (.error e, ctx')
  | some (.ok a, ctx') => f a ctx'

instance : Monad Rendering where
  pure := succeed
  bind := andThen

instance : LawfulMonad Rendering := LawfulMonad.mk' Rendering
  (fun p => by
    funext ctx
    change p.andThen succeed ctx = p ctx
    unfold andThen
    rcases p ctx with _ | ⟨_ | a, ctx'⟩ <;> rfl)
  (fun a f => rfl)
  (fun p f g => by
    funext ctx
    change (p.andThen f).andThen g ctx = p.andThen (fun a => (f a).andThen g) ctx
    unfold andThen
    rcases p ctx with _ | ⟨_ | a, ctx'⟩ <;> rfl)

def read (f : Context → α) : Rendering α := fun ctx => some (.ok (f ctx), ctx)

def modify (f : Context → Context) : Rendering Unit := fun ctx => some (.ok (), f ctx)

/-- Turns the result into a value, so that an error does not end the whole. -/
def attempt (p : Rendering α) : Rendering (Except RenderError α) := fun ctx =>
  match p ctx with
  | none => none
  | some (r, ctx') => some (.ok r, ctx')

/-- Changes the context after `p`, also if that ends in an error. -/
def andFinally (p : Rendering α) (f : Context → Context) : Rendering α := fun ctx =>
  match p ctx with
  | none => none
  | some (r, ctx') => some (r, f ctx')

def enter : Rendering Unit := fun ctx =>
  match ctx.enter with
  | .error e => some (.error e, ctx)
  | .ok ctx' => some (.ok (), ctx')

end Rendering
end BraceTemplate
