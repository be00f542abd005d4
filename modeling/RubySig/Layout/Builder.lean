import RubySig.Layout.Build

/-!
A document under construction. Groups and indented parts stay open until all that belongs to them
has been put into them; a line end that is forced breaks every group that is open at that moment.
-/
namespace RubySig.Doc

/-- A part that is still open, with what it holds so far. -/
inductive Unfinished where
  | group (broken : Bool) (contents : List Doc)
  | indent (width : Int) (contents : List Doc)

namespace Unfinished

def put (d : Doc) : Unfinished → Unfinished
  | .group broken contents => .group broken (contents ++ [d])
  | .indent width contents => .indent width (contents ++ [d])

/-- A line end is forced inside. -/
def broken : Unfinished → Unfinished
  | .group _ contents => .group true contents
  | .indent width contents => .indent width contents

def finished : Unfinished → Doc
  | .group broken contents => .group broken contents
  | .indent width contents => .indent width contents

end Unfinished

/-- The innermost open part, and those around it from the inside out; the last one is the root. -/
structure Builder where
  inner : Unfinished
  outer : List Unfinished

namespace Builder

/-- Nothing but the root, which is empty. -/
def empty : Builder := ⟨.group false [], []⟩

def put (b : Builder) (d : Doc) : Builder := { b with inner := b.inner.put d }

def breakGroups (b : Builder) : Builder := ⟨b.inner.broken, b.outer.map Unfinished.broken⟩

def enter (b : Builder) (u : Unfinished) : Builder := ⟨u, b.inner :: b.outer⟩

/-- Closes the innermost part, unless it is the root. -/
def leave (b : Builder) : Builder :=
  match b.outer with
  | [] => b
  | u :: outer => ⟨u.put b.inner.finished, outer⟩

mutual

/-- Takes steps one after the other, with levels of `size` columns. -/
def take (size : Int) (b : Builder) : List Step → Builder
  | [] => b
  | s :: steps => take size (takeOne size b s) steps

def takeOne (size : Int) (b : Builder) : Step → Builder
  | .text s => b.put (.text s)
  | .breakable separator force margin =>
    let b := b.put (.breakable separator force margin)
    if force then b.breakGroups else b
  | .group steps => (take size (b.enter (.group false [])) steps).leave
  | .indent steps => (take size (b.enter (.indent size [])) steps).leave
  | .nest width steps => (take size (b.enter (.indent width [])) steps).leave
  | .separated items none => takeEach size (fun b => (b.put (.text ",")).put space) b items
  | .separated items (some separator) => takeEach size (fun b => take size b separator) b items

/-- Takes items one after the other, with a separator between them. -/
def takeEach (size : Int) (separate : Builder → Builder) (b : Builder) : List (List Step) → Builder
  | [] => b
  | steps :: items => takeRest size separate (take size b steps) items

def takeRest (size : Int) (separate : Builder → Builder) (b : Builder) : List (List Step) → Builder
  | [] => b
  | steps :: items => takeRest size separate (take size (separate b) steps) items

end

/-- The document that steps build, taken one after the other. -/
def document (size : Int) (steps : List Step) : Doc :=
  (take size empty steps).inner.finished

end Builder
end RubySig.Doc
