import PostfixCompiler.Postfix.Instr
import PostfixCompiler.Syntax.Describe

/-!
# Listings

A listing shows code with one instruction on each line: its mnemonic, and its operand if it has one.
Labels and segment switches start at the margin, everything else behind a tab.

## Main definitions

* `PostfixCompiler.Instr.render`: an instruction as the listing shows it.
* `PostfixCompiler.Instr.atMargin`: the instruction starts at the margin.
* `PostfixCompiler.Listing.render`: the listing of some code.
-/

namespace PostfixCompiler

namespace Instr

/-- A mnemonic with its operand. -/
def withOperand (mnemonic operand : String) : String := mnemonic ++ " " ++ operand

/-- The instruction as the listing shows it. -/
def render : Instr → String
  | .text => "TEXT"
  | .data => "DATA"
  | .rodata => "RODATA"
  | .bss => "BSS"
  | .align => "ALIGN"
  | .label l => withOperand "LABEL" l
  | .global name .function => withOperand "GLOBAL" name ++ ", FUNC"
  | .global name .object => withOperand "GLOBAL" name ++ ", OBJ"
  | .external name => withOperand "EXTERN" name
  | .staticInt n => withOperand "SINT" (toString n)
  | .staticDouble d => withOperand "SDOUBLE" (d.write listingFormat)
  | .staticString s => withOperand "SSTRING" (Text.quote s)
  | .staticAddress l => withOperand "SADDR" l
  | .staticBytes n => withOperand "SALLOC" (toString n)
  | .int n => withOperand "INT" (toString n)
  | .double d => withOperand "DOUBLE" (d.write listingFormat)
  | .address l => withOperand "ADDR" l
  | .frameAddress o => withOperand "LOCAL" (toString o)
  | .stackPointer => "SP"
  | .loadInt => "LDINT"
  | .loadDouble => "LDDOUBLE"
  | .storeInt => "STINT"
  | .storeDouble => "STDOUBLE"
  | .alloc => "ALLOC"
  | .dupInt => "DUP32"
  | .dupDouble => "DUP64"
  | .trash n => withOperand "TRASH" (toString n)
  | .add => "ADD"
  | .sub => "SUB"
  | .mul => "MUL"
  | .div => "DIV"
  | .mod => "MOD"
  | .neg => "NEG"
  | .addDouble => "DADD"
  | .subDouble => "DSUB"
  | .mulDouble => "DMUL"
  | .divDouble => "DDIV"
  | .negDouble => "DNEG"
  | .intToDouble => "I2D"
  | .lt => "LT"
  | .le => "LE"
  | .ge => "GE"
  | .gt => "GT"
  | .eq => "EQ"
  | .ne => "NE"
  | .compareDouble => "DCMP"
  | .and => "AND"
  | .or => "OR"
  | .jump l => withOperand "JMP" l
  | .jumpIfZero l => withOperand "JZ" l
  | .jumpIfNotZero l => withOperand "JNZ" l
  | .call l => withOperand "CALL" l
  | .return => "RET"
  | .enter n => withOperand "ENTER" (toString n)
  | .leave => "LEAVE"
  | .loadResultInt => "LDFVAL32"
  | .loadResultDouble => "LDFVAL64"
  | .storeResultInt => "STFVAL32"
  | .storeResultDouble => "STFVAL64"

/-- The instruction starts at the margin: it places a label or switches to another segment. -/
def atMargin : Instr → Bool
  | .label _ | .text | .data | .rodata | .bss => true
  | _ => false

/-- The line of the listing, without its end. -/
def line (i : Instr) : String := if i.atMargin then i.render else "\t" ++ i.render

end Instr

/-- The listing of some code. Every line has an end, the last one too. -/
def Listing.render (code : List Instr) : String :=
  String.join (code.map fun i => i.line ++ "\n")

/-- The lines of a listing. A label that holds the end of a line takes two of them. -/
def Listing.lines (code : List Instr) : List String := ((render code).splitOn "\n").dropLast

end PostfixCompiler
