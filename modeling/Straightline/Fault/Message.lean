import Straightline.Fault.Dump

/-!
# The text of faults

One sentence per reason, followed by the node it is about.
-/

namespace Straightline

def AddressUse.text : AddressUse → String
  | next => "next"
  | storeAddress => "store address"
  | loadAddress => "load address"
  | effectAddress => "effect address"

/-- The sentence for a reason. -/
def Reason.text : Reason → String
  | tempOutOfRange n => s!"temp out of type environment ({n} temps)"
  | unknownExpr => "unknown expression"
  | unknownStmt => "unknown statement"
  | tempType ty => "bad temp type: " ++ ty.name
  | noSuccessor => "no successor"
  | jumpKind k => s!"bad jump kind: {k.code}"
  | negativeLength => "negative length"
  | assignType dst src => "type mismatch: " ++ dst.name ++ " = " ++ src.name
  | negativeOffset => "negative offset"
  | indexType ty => "index must be I32: " ++ ty.name
  | elementType data elem => "element type mismatch: " ++ data.name ++ " vs " ++ elem.name
  | guardType ty => "guard must be I1: " ++ ty.name
  | exitTarget tag => "exit target must be U32 or U64: " ++ tag.name
  | noCallee => "no callee"
  | addressWithoutTouch => "memory address without memory effect"
  | touchWithoutAddress => "memory effect without address"
  | touchSize n => "bad memory effect size: " ++ Dump.int n
  | memTouch t => s!"bad memory effect: {t.code}"
  | stateTouch t => "bad state effect: " ++ t.name
  | stateRegion off size => "bad state effect range: " ++ Dump.int off ++ "+" ++ Dump.int size
  | guardedResult => "effect with result must be unconditional"
  | useBeforeDef => "temp used before definition"
  | constTag => "bad constant tag: 0"
  | constWidth => "constant does not fit its tag"
  | registerRead => "bad register read"
  | notUnary op => "not a unary op: " ++ op.name
  | operandType got want => "operand type: " ++ got.name ++ ", want " ++ want.name
  | notBinary op => "not a binary op: " ++ op.name
  | firstOperandType got want => "first operand type: " ++ got.name ++ ", want " ++ want.name
  | secondOperandType got want => "second operand type: " ++ got.name ++ ", want " ++ want.name
  | loadType => "bad load type"
  | badCall => "bad call"
  | conditionType ty => "select condition must be I8: " ++ ty.name
  | armTypes z x => "select arms differ: " ++ z.name ++ " vs " ++ x.name
  | defTwice t => "temp t" ++ Dump.temp t ++ " assigned twice"
  | addressType use ty => use.text ++ " must be I32 or I64: " ++ ty.name
  | window w => "bad array descriptor: " ++ Dump.window w
  | notAtom => "not an atom in flat block"
  | unknownEffect => "unknown effect helper"
  | unknownHelper => "unknown helper"
  | readOutside n => s!"register read out of range ({n} bytes)"
  | writeOutside n => s!"register write out of range ({n} bytes)"
  | unaryOp => "unsupported unary op"
  | binaryOp => "unsupported binary op"
  | constOperand tag want =>
    "constant " ++ tag.name ++ " operand where " ++ want.name ++ " expected"
  | constCondition tag => "select condition constant must be U8: " ++ tag.name
  | tooDeep limit => s!"expression nested deeper than {limit}"

def IllFormed.message (e : IllFormed) : String :=
  "ill-formed block: " ++ e.reason.text ++
    match e.node with
    | none => ""
    | some n => ": " ++ n.dump

end Straightline
