import Yrby.Document

/- What travels in the cable's JSON envelope, as either end sees it. -/
namespace Yrby

/-- A JSON value, or undefined. A number is int when it is integral, whatever its
    spelling; real stands for every other number of either language. -/
inductive Value where
  | undefined
  | null
  | bool (b : Bool)
  | int (n : Int)
  | real (text : String)
  | str (s : String)
  | arr (items : List Value)
  | obj (fields : List (String × Value))

namespace Value

/- data.is_a?(Hash) ? data[key] : nil -/
def fetch (v : Value) (key : String) : Value :=
  match v with
  | .obj fields => (fields.lookup key).getD .null
  | _ => .null

/- v.key of a JavaScript value that is neither null nor undefined -/
def member (v : Value) (key : String) : Value :=
  match v with
  | .obj fields => (fields.lookup key).getD .undefined
  | _ => .undefined

def isNil : Value → Bool
  | .undefined | .null => true
  | _ => false

def isUndefined : Value → Bool
  | .undefined => true
  | _ => false

/- The values that && and || take for false -/
def falsy : Value → Bool
  | .undefined | .null | .bool false => true
  | .int n => n == 0
  | .real text => text == "NaN"
  | .str s => s.isEmpty
  | _ => false

end Value

end Yrby
