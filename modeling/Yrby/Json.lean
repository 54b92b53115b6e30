import Yrby.Wire

/- Whether JSON.parse takes a text (awareness states travel as JSON); what it
   would return is not needed. Every reader gives back the rest of the text. -/
namespace Yrby.Json
open Document Wire

abbrev Text := List Char

def skipSpace (text : Text) : Text :=
  text.dropWhile fun c => c = ' ' || c = '\t' || c = '\n' || c = '\r'

def isDigit (c : Char) : Bool := '0' ≤ c && c ≤ '9'

def isHex (c : Char) : Bool := isDigit c || 'a' ≤ c && c ≤ 'f' || 'A' ≤ c && c ≤ 'F'

def readWord (word : Text) (text : Text) : Option Text :=
  if word.isPrefixOf text then some (text.drop word.length) else none

/- What follows the opening quote -/
def readString : Text → Option Text
  | [] => none
  | '"' :: rest => some rest
  | '\\' :: 'u' :: a :: b :: c :: d :: rest =>
    if isHex a && isHex b && isHex c && isHex d then readString rest else none
  | '\\' :: e :: rest =>
    if e ∈ ['"', '\\', '/', 'b', 'f', 'n', 'r', 't'] then readString rest else none
  | c :: rest => if c.toNat < 32 || c = '\\' then none else readString rest

def readDigits : Text → Option Text
  | [] => none
  | c :: rest => if isDigit c then some (rest.dropWhile isDigit) else none

def readInteger : Text → Option Text
  | '0' :: rest => some rest
  | text => readDigits text

def readFraction : Text → Option Text
  | '.' :: rest => readDigits rest
  | text => some text

def readExponent : Text → Option Text
  | [] => some []
  | c :: rest =>
    if c = 'e' || c = 'E' then
      match rest with
      | '+' :: rest => readDigits rest
      | '-' :: rest => readDigits rest
      | rest => readDigits rest
    else some (c :: rest)

def readNumber (text : Text) : Option Text := do
  let text := match text with
    | '-' :: rest => rest
    | text => text
  readExponent (← readFraction (← readInteger text))

mutual

def readValue : Nat → Text → Option Text
  | 0, _ => none
  | fuel + 1, text =>
    match skipSpace text with
    | '"' :: rest => readString rest
    | '[' :: rest =>
      match skipSpace rest with
      | ']' :: rest => some rest
      | rest => readItems fuel rest
    | '{' :: rest =>
      match skipSpace rest with
      | '}' :: rest => some rest
      | rest => readMembers fuel rest
    | 't' :: rest => readWord "rue".toList rest
    | 'f' :: rest => readWord "alse".toList rest
    | 'n' :: rest => readWord "ull".toList rest
    | text => readNumber text

def readItems : Nat → Text → Option Text
  | 0, _ => none
  | fuel + 1, text => do
    match skipSpace (← readValue fuel text) with
    | ']' :: rest => some rest
    | ',' :: rest => readItems fuel rest
    | _ => none

def readMembers : Nat → Text → Option Text
  | 0, _ => none
  | fuel + 1, text =>
    match skipSpace text with
    | '"' :: rest => do
      match skipSpace (← readString rest) with
      | ':' :: rest =>
        match skipSpace (← readValue fuel rest) with
        | '}' :: rest => some rest
        | ',' :: rest => readMembers fuel rest
        | _ => none
      | _ => none
    | _ => none

end

/- Every bracket takes two calls at most, and every call after it a character. -/
def parse (text : String) : Except JsError Unit :=
  match readValue (2 * text.toList.length + 2) text.toList with
  | some rest => if (skipSpace rest).isEmpty then .ok () else .error "SyntaxError: trailing text"
  | none => .error "SyntaxError: not JSON"

/- decoding.readVarString, with a TextDecoder that is fatal on bad UTF-8 -/
def readVarString : Reader String := do
  let bytes ← readVarUint8Array
  match String.fromUTF8? ⟨bytes.toArray⟩ with
  | some text => return text
  | none => throw "TypeError: the encoded data was not valid for encoding utf-8"

theorem readVarString_consumes {bytes rest : Bytes} {text : String}
    (read : readVarString bytes = .ok text rest) : rest.length < bytes.length := by
  simp only [readVarString, bind, EStateM.bind] at read
  cases body : readVarUint8Array bytes with
  | error e left => simp [body] at read
  | ok state left =>
    have shorter := readVarUint8Array_consumes body
    simp only [body] at read
    cases decoded : String.fromUTF8? ⟨state.toArray⟩ with
    | none =>
      simp only [decoded] at read
      cases read
    | some text' =>
      simp only [decoded] at read
      obtain ⟨_, rfl⟩ := EStateM.Result.ok.inj read
      exact shorter

example : (parse "[\"a\", [1, -2.5e3, null]]").toBool = true := by decide +kernel

example : (parse "[1, ]").toBool = false := by decide +kernel

end Yrby.Json
