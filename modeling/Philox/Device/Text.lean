import Philox.Device.Syntax

/-! How a device program is written.

Two operators are bracketed when they meet, unless the inner one is a product in a
sum or the left operand of the same operator. A line that is too long is broken in
one of three places: a declaration after its sign, a returned call between its
arguments, and a signature between its parameters. -/
namespace Philox.Device

/-- The columns a statement and a signature may take before they are broken. -/
def statementWidth : Nat := 80
def signatureWidth : Nat := 100

def indented (depth : Nat) (s : String) : String := String.ofList (List.replicate (4 * depth) ' ') ++ s

/-- Prepends to the first line. -/
def prepend (s : String) : List String → List String
  | [] => [s]
  | line :: rest => (s ++ line) :: rest

def Ty.text : Ty → String
  | word => "unsigned int"
  | wide => "unsigned long long"
  | single => "float"
  | double => "double"
  | vec2 => "uint2"
  | vec4 => "uint4"

def Lane.text : Lane → String
  | x => "x"
  | y => "y"
  | z => "z"
  | w => "w"

def Coordinate.text : Coordinate → String
  | blockIdx => "blockIdx.x"
  | blockDim => "blockDim.x"
  | threadIdx => "threadIdx.x"

def Op.text : Op → String
  | mul => "*"
  | div => "/"
  | add => "+"
  | shl => "<<"
  | shr => ">>"
  | xor => "^"
  | or => "|"

def Relation.text : Relation → String
  | lt => "<"
  | ge => ">="

namespace Expr

def op? : Expr → Option Op
  | binary op .. => some op
  | _ => none

def bracketed (bare : Bool) (s : String) : String := if bare then s else "(" ++ s ++ ")"

/-- Whether the left operand of `op` stands without brackets. -/
def bareLeft (op : Op) (e : Expr) : Bool :=
  match e.op? with
  | none => true
  | some inner => inner = op || (inner = .mul && op = .add)

def bareRight (op : Op) (e : Expr) : Bool :=
  match e.op? with
  | none => true
  | some inner => inner = .mul && op = .add

/-- Whether an operand of a comparison stands without brackets. -/
def bareCompared (e : Expr) : Bool :=
  match e.op? with
  | none => true
  | some inner => inner = .mul || inner = .add

mutual

def text : Expr → String
  | int n => toString n
  | word n => toString n ++ "u"
  | wide n => toString n ++ "ull"
  | single n => toString n ++ ".0f"
  | double n => toString n ++ ".0"
  | constant name => name
  | var name => name
  | lane name i => name ++ "." ++ i.text
  | coordinate c => c.text
  | binary op a b =>
    bracketed (a.bareLeft op) a.text ++ " " ++ op.text ++ " " ++ bracketed (b.bareRight op) b.text
  | cast ty e => "(" ++ ty.text ++ ")" ++ bracketed e.op?.isNone e.text
  | call name args => name ++ "(" ++ ", ".intercalate (texts args) ++ ")"

def texts : List Expr → List String
  | [] => []
  | e :: rest => e.text :: texts rest

end

/-- Two parts to a line, the last closed by `close`. -/
def pairs (close : String) : List String → List String
  | [] => []
  | [a] => [a ++ close]
  | [a, b] => [a ++ ", " ++ b ++ close]
  | a :: b :: rest => (a ++ ", " ++ b ++ ",") :: pairs close rest

end Expr

def Test.text : Test → String
  | .compare r a b =>
    Expr.bracketed a.bareCompared a.text ++ " " ++ r.text ++ " " ++
      Expr.bracketed b.bareCompared b.text
  | .wraps name i => "++" ++ name ++ "." ++ i.text ++ " == 0u"

/-- The line itself, or its broken form if it is too long. -/
def fit (width : Nat) (line : String) (broken : List String) : List String :=
  if line.length ≤ width then [line] else broken

mutual

/-- The lines of a statement, the first without its indentation. -/
def Stmt.lines (depth : Nat) : Stmt → List String
  | .gap => [""]
  | .declare ty name e =>
    let head := ty.text ++ " " ++ name ++ " ="
    fit (statementWidth - 4 * depth) (head ++ " " ++ e.text ++ ";")
      [head, indented (depth + 1) (e.text ++ ";")]
  | .assign name e => [name ++ " = " ++ e.text ++ ";"]
  | .bump name i => ["++" ++ name ++ "." ++ i.text ++ ";"]
  | .store buffer index value => [buffer ++ "[" ++ index.text ++ "] = " ++ value.text ++ ";"]
  | .when t s => prepend ("if (" ++ t.text ++ ") ") (s.lines depth)
  | .group body => "\x7b" :: (bodyLines (depth + 1) body ++ [indented depth "\x7d"])
  | .count name start bound body =>
    ("for (unsigned int " ++ name ++ " = " ++ toString start ++ "; " ++ name ++ " < " ++
        bound.text ++ "; ++" ++ name ++ ") \x7b") ::
      (bodyLines (depth + 1) body ++ [indented depth "\x7d"])
  | .leave => ["return;"]
  | .give e =>
    let line := "return " ++ e.text ++ ";"
    match e with
    | .call name args => fit (statementWidth - 4 * depth) line
        (("return " ++ name ++ "(") ::
          (Expr.pairs ");" (Expr.texts args)).map (indented (depth + 1)))
    | _ => [line]

def bodyLines (depth : Nat) : List Stmt → List String
  | [] => []
  | .gap :: rest => "" :: bodyLines depth rest
  | s :: rest => prepend (indented depth "") (s.lines depth) ++ bodyLines depth rest

end

def Caller.text : Caller → String
  | device => "__device__"
  | inlined => "__device__ __forceinline__"
  | host => "extern \"C\" __global__"

def Param.text (p : Param) : String := p.ty.text ++ (if p.buffer then "* " else " ") ++ p.name

/-- Each part on a line of its own, with a comma behind all but the last. -/
def column : List String → List String
  | [] => []
  | [a] => [indented 1 a]
  | a :: rest => indented 1 (a ++ ",") :: column rest

def Function.signature (f : Function) : List String :=
  let result := (f.result.map Ty.text).getD "void"
  let head := f.caller.text ++ " " ++ result ++ " " ++ f.name ++ "("
  let params := f.params.map Param.text
  let close := ") \x7b"
  fit signatureWidth (head ++ ", ".intercalate params ++ close) (head :: (column params ++ [close]))

def Function.lines (f : Function) : List String :=
  (f.remark.map ("// " ++ ·)).toList ++ f.signature ++ bodyLines 1 f.body ++ ["\x7d"]

/-- Eight hexadecimal digits. -/
def hexWord (x : UInt32) : String :=
  let digits := (Nat.toDigits 16 x.toNat).map Char.toUpper
  String.ofList (List.replicate (8 - digits.length) '0' ++ digits)

def constantLine (c : String × UInt32) : String :=
  "#define " ++ c.1 ++ " 0x" ++ hexWord c.2 ++ "u"

/-- The lines of a program: a blank line before the constants and before each
function, and a line break at the very end. -/
def Program.lines (p : Program) : List String :=
  "" :: (p.constants.map constantLine ++ p.functions.flatMap fun f => "" :: f.lines) ++ [""]

def Program.text (p : Program) : String := "\n".intercalate p.lines

end Philox.Device
