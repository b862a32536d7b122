import Accessibility.Document.Layout

/-!
The layout as a loop over a stack of jobs. The loop takes the job on top of the stack, exposes what
the job tells, and puts the jobs that it leads to in its place. It ends with an empty stack, and has
then exposed what the layout tells.
-/

set_option autoImplicit false

namespace Accessibility.Document

/-- A task of the layout with the exposed parent and the scope that it is done in. -/
structure LayoutJob where
  task : LayoutTask
  parent : Handle
  scope : Scope
deriving DecidableEq, Repr

/-- What a job exposes, and the jobs that it leads to. -/
def proceed (document : Document) (job : LayoutJob) : Option Exposed × List LayoutJob :=
  match job.task with
  | .inside handle =>
    match document.get? handle with
    | none => (none, [])
    | some node =>
      match document.shadowRootOf? node with
      | some root => (none, [⟨.inside root, job.parent, .shadow root⟩])
      | none => (none, node.children.map fun child => ⟨.self child, job.parent, job.scope⟩)
  | .self handle =>
    match document.get? handle with
    | none => (none, [])
    | some node =>
      if node.kind = .shadowRoot ∨ node.kind = .document ∨ node.isHidden then (none, [])
      else
        match job.scope with
        | .shadow root =>
          if node.kind.isSlot then
            match document.assigned root handle with
            | [] => (none, [⟨.inside handle, job.parent, job.scope⟩])
            | lights =>
              let outside := (document.enclosingScope? job.scope).getD .document
              (none, lights.map fun light => ⟨.self light, job.parent, outside⟩)
          else (some ⟨handle, some job.parent, job.scope⟩, [⟨.inside handle, handle, job.scope⟩])
        | .document =>
          (some ⟨handle, some job.parent, job.scope⟩, [⟨.inside handle, handle, job.scope⟩])

/-- The jobs that the loop does in some steps, in their order, and the stack that it leaves. -/
def layoutLoop (document : Document) :
    (steps : Nat) → (stack : List LayoutJob) → List LayoutJob × List LayoutJob
  | 0, stack => ([], stack)
  | _ + 1, [] => ([], [])
  | steps + 1, job :: stack =>
    let rest := document.layoutLoop steps ((document.proceed job).2 ++ stack)
    (job :: rest.1, rest.2)

/-- The job that the loop begins with. The root is exposed before. -/
def firstJob (document : Document) : LayoutJob :=
  ⟨.inside document.root, document.root, .document⟩

/-- To lay out a job is to tell what it exposes and to lay out the jobs that it leads to. -/
theorem layOut_eq_proceed (document : Document) (depth : Nat) (job : LayoutJob) :
    document.layOut (depth + 1) job.task job.parent job.scope =
      (document.proceed job).1.toList ++
        (document.proceed job).2.flatMap fun next =>
          document.layOut depth next.task next.parent next.scope := by
  obtain ⟨task, parent, scope⟩ := job
  cases task with
  | inside handle =>
    simp only [layOut, proceed]
    cases document.get? handle with
    | none => rfl
    | some node =>
      dsimp only
      cases document.shadowRootOf? node with
      | some root => simp
      | none => simp [List.flatMap_map]
  | self handle =>
    simp only [layOut, proceed]
    cases document.get? handle with
    | none => rfl
    | some node =>
      dsimp only
      by_cases passed : node.kind = .shadowRoot ∨ node.kind = .document ∨ node.isHidden
      · rw [if_pos passed, if_pos passed]
        rfl
      · rw [if_neg passed, if_neg passed]
        cases scope with
        | document => simp
        | shadow root =>
          dsimp only
          cases node.kind.isSlot with
          | false => simp
          | true =>
            cases document.assigned root handle with
            | nil => simp
            | cons light rest => simp [List.flatMap_map]

end Accessibility.Document
