import RegisterMachine.Log
import RegisterMachine.Token.Scan

/-! Reading tokens one after the other. A lexer that has come to the end goes on to answer with the
    end of input. One that has met a number of too many digits is broken: it tells so once and has
    nothing to give any more, not even the end of input. -/

namespace RegisterMachine

/-- The state of a reader of tokens. -/
inductive Lexer where
  | reading (rest : List Located)
  | ended
  | broken
  deriving DecidableEq

namespace Lexer

/-- Why there is no token. -/
inductive Failure where
  | exhausted
  | tooLong (digits : Nat)
  deriving DecidableEq

def ofText (text : String) : Lexer := .reading (Located.ofText text)

/-- The end of input has been read. -/
def isDone (l : Lexer) : Bool := l = .ended

/-- The next token; the end of input as often as it is asked for. -/
def nextToken : Lexer → Except Failure Token × Lexer
  | .reading [] => (.ok .endOfInput, .ended)
  | .reading (x :: rest) =>
    match x.lexeme with
    | .token t => (.ok t, .reading rest)
    | .tooLong digits => (.error (.tooLong digits), .broken)
  | .ended => (.ok .endOfInput, .ended)
  | .broken => (.error .exhausted, .broken)

/-- The next token in front of the end of input. -/
def next (l : Lexer) : Except Failure Token × Lexer :=
  match l.nextToken with
  | (.ok .endOfInput, l') => (.error .exhausted, l')
  | answer => answer

/-- All tokens that are left in front of the end of input. -/
def remaining : Lexer → Except Failure (List Token) × Lexer
  | .reading rest =>
    match Located.tokens rest with
    | .ok ts => (.ok ts, .ended)
    | .error digits => (.error (.tooLong digits), .broken)
  | .ended => (.ok [], .ended)
  | .broken => (.ok [], .broken)

/-- What is left to read. -/
def pending : Lexer → List Located
  | .reading rest => rest
  | .ended | .broken => []

end Lexer

namespace Located

/-- The log of reading a row of lexemes: a line for each token found in a text, up to a number that
    is too long. -/
def log : List Located → List Log.Entry
  | [] => []
  | x :: xs =>
    match x.lexeme, x.position with
    | .token t, some position => Log.debug s!"Token {t.text} @ {position}" :: log xs
    | .token _, none => log xs
    | .tooLong _, _ => []

/-- The log of reading from `before` on until `after` is left of it. -/
def logBetween (before after : List Located) : List Log.Entry :=
  log (before.take (before.length - after.length))

end Located

end RegisterMachine
