import StackTape.Program.Instr
import StackTape.Source.Fault

/-!
# The grammar

    file  = ("let" ident* ";")? instr*
    instr = "get" ident | "set" ident | "push" int | "addc" int | "subc" int | "print" string
          | "stat" block | "if" block "then" block | word
    block = "{" instr* "}"

where `word` is the name of an instruction without operands. No word is reserved. The reader takes
one token at a time and keeps the blocks that are open on a stack. An instruction whose second token
is wrong does not count as begun inside a block, so there the fault is its first token.
-/

namespace StackTape.Source

/-- An instruction as written, with the place where it starts. -/
inductive Item
  /-- An instruction without blocks and string literals. -/
  | leaf (pos : Position) (x : Instr)
  | print (pos : Position) (literal : Bytes)
  | stat (pos : Position) (body : List Item)
  | ifThen (pos : Position) (test body : List Item)

/-! ## First words -/

/-- A word that starts an instruction with one operand. -/
inductive OperandWord
  | get
  | set
  | push
  | addc
  | subc
  | print
deriving DecidableEq, Repr

/-- A word that starts an instruction with blocks. -/
inductive BlockWord
  | stat
  | ifWord
deriving DecidableEq, Repr

inductive Word
  | operand (w : OperandWord)
  | block (w : BlockWord)
  | basic (b : Basic)
deriving DecidableEq, Repr

def Word.text : Word → Bytes
  | .operand .get => ascii "get"
  | .operand .set => ascii "set"
  | .operand .push => ascii "push"
  | .operand .addc => ascii "addc"
  | .operand .subc => ascii "subc"
  | .operand .print => ascii "print"
  | .block .stat => ascii "stat"
  | .block .ifWord => ascii "if"
  | .basic b => b.name

def Word.all : List Word :=
  [.operand .get, .operand .set, .operand .push, .operand .addc, .operand .subc, .operand .print,
    .block .stat, .block .ifWord] ++ Basic.all.map .basic

def Token.word? (t : Token) : Option Word :=
  if t.kind = .ident then Word.all.find? fun w => w.text = t.text else none

namespace OperandWord

def kind : OperandWord → Kind
  | .get | .set => .ident
  | .push | .addc | .subc => .int
  | .print => .string

/-- What is missing when the operand is not there. -/
def expected : OperandWord → Expected
  | .get | .set => .ident
  | .push | .addc | .subc => .int
  | .print => .string

/-- The value of an integer token `u` after the word `t`. -/
def integer (t u : Token) : Except Fault Int :=
  match Integer.readAnnouncedInt u.text with
  | .ok n => .ok n
  | .error f => .error (.badInteger t.stop u.text f)

def item (t u : Token) : OperandWord → Except Fault Item
  | .get => .ok (.leaf t.start (.get u.text))
  | .set => .ok (.leaf t.start (.set u.text))
  | .push => (fun n => .leaf t.start (.push n)) <$> integer t u
  | .addc => (fun n => .leaf t.start (.addc n)) <$> integer t u
  | .subc => (fun n => .leaf t.start (.subc n)) <$> integer t u
  | .print => .ok (.print t.start u.text)

end OperandWord

/-! ## Open blocks -/

/-- Which block is open. -/
inductive Part
  | stat
  | test
  /-- The body of a conditional whose test is read. -/
  | body (test : List Item)

/-- An open block: where its instruction starts, and the items before that instruction in the
enclosing block, the last one first. -/
structure Opened where
  pos : Position
  part : Part
  before : List Item

namespace BlockWord

/-- The block that the word opens first. -/
def part : BlockWord → Part
  | .stat => .stat
  | .ifWord => .test

/-- What is missing when that block is not there. -/
def expected : BlockWord → Expected
  | .stat => .block
  | .ifWord => .testAndBody

end BlockWord

/-! ## Reading -/

/-- A token, or the end of the text, that is not allowed. -/
def unexpected (eof : Position) (t : Option Token) (x : Option Expected) : Fault :=
  match t with
  | some t => .unexpected t.start (some t.text) x
  | none => .unexpected eof none x

/-- The instruction that starts with `t` has the wrong second token `u`. -/
def wrongSecond (eof : Position) (stack : List Opened) (t : Token) (u : Option Token)
    (x : Expected) : Fault :=
  if stack.isEmpty then unexpected eof u (some x)
  else unexpected eof (some t) (some .closingBrace)

def openingBrace : UInt8 := 0x7B

def closingBrace : UInt8 := 0x7D

/-- The instructions that the tokens spell, inside the open blocks of `stack`, innermost first.
`done` holds those already read in the innermost block, the last one first. -/
def items (eof : Position) : List Opened → List Item → List Token → Except Fault (List Item)
  | [], done, [] => .ok done.reverse
  | _ :: _, _, [] => .error (unexpected eof none (some .closingBrace))
  | stack, done, t :: rest =>
    match t.word? with
    | some (.basic b) => items eof stack (.leaf t.start (.basic b) :: done) rest
    | some (.operand w) =>
      match rest with
      | u :: rest =>
        if u.kind = w.kind then
          match w.item t u with
          | .ok x => items eof stack (x :: done) rest
          | .error f => .error f
        else .error (wrongSecond eof stack t (some u) w.expected)
      | [] => .error (wrongSecond eof stack t none w.expected)
    | some (.block w) =>
      match rest with
      | u :: rest =>
        if u.isMark openingBrace then items eof (⟨t.start, w.part, done⟩ :: stack) [] rest
        else .error (wrongSecond eof stack t (some u) w.expected)
      | [] => .error (wrongSecond eof stack t none w.expected)
    | none =>
      match stack with
      | [] => .error (unexpected eof (some t) none)
      | o :: stack =>
        if t.isMark closingBrace then
          match o.part with
          | .stat => items eof stack (.stat o.pos done.reverse :: o.before) rest
          | .body test => items eof stack (.ifThen o.pos test done.reverse :: o.before) rest
          | .test =>
            match rest with
            | u :: v :: rest =>
              if u.isWord (ascii "then") then
                if v.isMark openingBrace then
                  items eof (⟨o.pos, .body done.reverse, o.before⟩ :: stack) [] rest
                else .error (unexpected eof (some v) (some .block))
              else .error (unexpected eof (some u) (some .thenBody))
            | [u] =>
              if u.isWord (ascii "then") then .error (unexpected eof none (some .block))
              else .error (unexpected eof (some u) (some .thenBody))
            | [] => .error (unexpected eof none (some .thenBody))
        else .error (unexpected eof (some t) (some .closingBrace))

/-- The declared names up to the semicolon, and the tokens after it. -/
def names (eof : Position) : List Token → Except Fault (List Bytes × List Token)
  | [] => .error (unexpected eof none (some .semicolon))
  | t :: rest =>
    if t.kind = .ident then (fun r => (t.text :: r.1, r.2)) <$> names eof rest
    else if t.isMark 0x3B then .ok ([], rest)
    else .error (unexpected eof (some t) (some .semicolon))

def file (eof : Position) : List Token → Except Fault (List Bytes × List Item)
  | [] => .ok ([], [])
  | t :: rest =>
    if t.isWord (ascii "let") then do
      let (vars, rest) ← names eof rest
      let body ← items eof [] [] rest
      return (vars, body)
    else
      (fun body => ([], body)) <$> items eof [] [] (t :: rest)

end StackTape.Source
