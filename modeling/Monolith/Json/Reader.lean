import Monolith.Json.Token

/-! # Reading JSON text

The reader takes one token at a time and keeps the containers that are still
open as a stack of frames. After a comma a value or a key has to follow, so a
trailing comma is refused.
-/

namespace Monolith.Json

/-- A container that is still open, with what it holds so far, last first. -/
inductive Frame where
  | items (done : List Json)
  | members (done : List (Option String × Json)) (key : Option String)

/-- What the reader waits for. -/
inductive Progress where
  | nextValue (stack : List Frame)
  /-- Just after the bracket that opens an array. -/
  | itemOrEnd (stack : List Frame)
  /-- Just after the brace that opens an object. -/
  | keyOrEnd (stack : List Frame)
  /-- Just after a comma in an object. -/
  | nextKey (done : List (Option String × Json)) (stack : List Frame)
  | colon (done : List (Option String × Json)) (key : Option String) (stack : List Frame)
  | complete (value : Json) (stack : List Frame)

namespace Progress

/-- A token that starts a value. -/
def begin? (stack : List Frame) : Token → Option Progress
  | .beginArray => some (.itemOrEnd stack)
  | .beginObject => some (.keyOrEnd stack)
  | .null => some (.complete .null stack)
  | .bool b => some (.complete (.bool b) stack)
  | .int i => some (.complete (.int i) stack)
  | .real => some (.complete .real stack)
  | .str text => some (.complete (.str text) stack)
  | _ => none

def step? : Progress → Token → Option Progress
  | .nextValue stack, token => begin? stack token
  | .itemOrEnd stack, .endArray => some (.complete (.arr []) stack)
  | .itemOrEnd stack, token => begin? (.items [] :: stack) token
  | .keyOrEnd stack, .endObject => some (.complete (.obj []) stack)
  | .keyOrEnd stack, .str key => some (.colon [] key stack)
  | .nextKey done stack, .str key => some (.colon done key stack)
  | .colon done key stack, .colon => some (.nextValue (.members done key :: stack))
  | .complete value (.items done :: stack), .comma =>
      some (.nextValue (.items (value :: done) :: stack))
  | .complete value (.items done :: stack), .endArray =>
      some (.complete (.arr (value :: done).reverse) stack)
  | .complete value (.members done key :: stack), .comma =>
      some (.nextKey ((key, value) :: done) stack)
  | .complete value (.members done key :: stack), .endObject =>
      some (.complete (.obj ((key, value) :: done).reverse) stack)
  | _, _ => none

def run? : Progress → List Token → Option Progress
  | state, [] => some state
  | state, token :: rest => (step? state token).bind (run? · rest)

end Progress

/-- Reads text that holds one document and blanks around it. -/
def read? (text : String) : Option Json :=
  match (tokens? text).bind (Progress.run? (.nextValue [])) with
  | some (.complete value []) => some value
  | _ => none

end Monolith.Json
