import GlideBridge.Rule

/-!
Function declarations around a script. `unwrap` gives the bare statements of a client script,
and `wrap` makes the handler function around converted statements.
-/

namespace GlideBridge.Handler

def declarationHead : Pattern where
  opening := "function"
  pieces := [.one .blank, .many .blank, .one .word, .many .word, .many .blank, "(",
    .many (.except ')'), ")", .many .blank, .optional '{']
  lineStart := true

def dropHeads : Rule := { pattern := declarationHead }

def dropOpeningBrace (t : Text) : Text :=
  match Text.trimLeft t with
  | '{' :: u => Text.trimLeft u
  | u => u

def dropClosingBrace (t : Text) : Text :=
  match t.reverse.dropWhile Text.isBlank with
  | '}' :: u => (u.dropWhile Text.isBlank).reverse
  | _ => t

/-- All heads go, then one opening brace, then one closing brace, each only if it is there. -/
def unwrap (source : Text) : Text := dropClosingBrace (dropOpeningBrace (dropHeads.apply source))

def parameters : List Text := ["ele", "fieldObj", "allFields"]

def wrap (name body : Text) : Text :=
  "function " ++ name ++ "(" ++ Text.joinWith ", " parameters ++ ") \x7b\n" ++ body ++ "\n\x7d"

end GlideBridge.Handler
