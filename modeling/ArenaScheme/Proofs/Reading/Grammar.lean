/-
# A grammar of data

The text of a datum is defined by recursive descent over its tokens, without a heap.  A datum is a
literal, a mark with a datum after it, or a list; the elements of a list come one after the other up
to its end or up to a dot; and a dot is followed by one datum and the end of the list.
-/
import ArenaScheme.Proofs.Reading.Trees
import ArenaScheme.Reader

namespace ArenaScheme

/-- Whether a token is a dot by itself. -/
def Token.isDot : Token → Bool
  | .literal l => Reader.isDot l
  | _ => false

/-- A fault at a position. -/
def ReadFailure.ofFault (fault : ReadFault) (position : Nat) : ReadFailure :=
  ⟨.unreadable fault, position⟩

/-- What is wrong with a scan that ends too early, if the end of the text would be the given
fault. -/
def Ending.refusal (fault : ReadFault) : Ending → ReadFailure
  | .endOfText stop => .ofFault fault stop
  | .fault cause _ stop => .ofFault cause stop

namespace Grammar

/-- A tree at the beginning of some tokens, the position after it, and the tokens after it, which
are fewer. -/
structure Parsed (lexemes : List Lexeme) where
  tree : Tree
  stop : Nat
  rest : List Lexeme
  fewer : rest.length < lexemes.length

/-- What remains of a list after an element. -/
def Parsed.ofTail {lexemes rest : List Lexeme} (p : Parsed rest) (t : Tree)
    (hr : rest.length ≤ lexemes.length) : Parsed lexemes :=
  ⟨t, p.stop, p.rest, Nat.lt_of_lt_of_le p.fewer hr⟩

/-- The end of a list after the datum that follows a dot. -/
def close (ending : Ending) (t : Tree) :
    (lexemes : List Lexeme) → Except ReadFailure (Parsed lexemes)
  | [] => .error (match ending with
    | .endOfText stop => .ofFault .closingExpected stop
    | .fault _ start _ => .ofFault .closingExpected (start + 1))
  | lexeme :: rest =>
    if lexeme.token = .closing then .ok ⟨t, lexeme.stop, rest, by simp⟩
    else .error (.ofFault .closingExpected (lexeme.start + 1))

mutual

/-- A datum. -/
def datum (ending : Ending) : (lexemes : List Lexeme) → Except ReadFailure (Parsed lexemes)
  | [] => .error (ending.refusal .unexpectedEnd)
  | lexeme :: rest =>
    match lexeme.token with
    | .opening => do
      let p ← items ending false rest
      return p.ofTail p.tree (by simp)
    | .closing => .error (.ofFault .unexpectedClosing lexeme.start)
    | .mark quotation => do
      let p ← datum ending rest
      return p.ofTail (quotation.form p.tree) (by simp)
    | .literal literal => return ⟨.leaf literal, lexeme.stop, rest, by simp⟩
termination_by lexemes => (lexemes.length, 0)

/-- The rest of a list.  A dot may come only if there are elements in front of it. -/
def items (ending : Ending) (nonempty : Bool) :
    (lexemes : List Lexeme) → Except ReadFailure (Parsed lexemes)
  | [] => .error (ending.refusal .unterminatedList)
  | lexeme :: rest =>
    if lexeme.token = .closing then .ok ⟨.emptyList, lexeme.stop, rest, by simp⟩
    else if lexeme.token.isDot then
      if nonempty then do
        let p ← datum ending rest
        let q ← close ending p.tree p.rest
        return q.ofTail q.tree (by have := p.fewer; simp; omega)
      else .error (.ofFault .nothingBeforeDot lexeme.start)
    else do
      let p ← datum ending (lexeme :: rest)
      let q ← items ending true p.rest
      return q.ofTail (.pair p.tree q.tree) (Nat.le_of_lt p.fewer)
termination_by lexemes => (lexemes.length, 1)
decreasing_by
  · exact Prod.Lex.left _ _ (by simp)
  · exact Prod.Lex.right _ (by decide)
  · exact Prod.Lex.left _ _ p.fewer

end

/-- A datum with the position after it and what follows it. -/
structure Found where
  tree : Tree
  stop : Nat
  rest : Scan
deriving DecidableEq

/-- The first datum of a scan, if it has one. -/
def parse (scan : Scan) : Except ReadFailure (Option Found) :=
  match scan.lexemes, scan.ending with
  | [], .endOfText _ => .ok none
  | lexemes, ending => do
    let p ← datum ending lexemes
    return some ⟨p.tree, p.stop, ⟨p.rest, ending⟩⟩

/-- The greatest number of lists that are open at the same time, if `depth` of them are open
already. -/
def nestingFrom (depth : Nat) : List Lexeme → Nat
  | [] => depth
  | lexeme :: rest => match lexeme.token with
    | .opening => nestingFrom (depth + 1) rest
    | .closing => max depth (nestingFrom (depth - 1) rest)
    | _ => nestingFrom depth rest

/-- How deeply the lists of a scan are nested. -/
def nesting (scan : Scan) : Nat := nestingFrom 0 scan.lexemes

end Grammar

end ArenaScheme
