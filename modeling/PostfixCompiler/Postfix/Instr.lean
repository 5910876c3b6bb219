import PostfixCompiler.Double.Basic

/-!
# Instructions of the postfix machine

The machine has a stack that grows downwards, a stack pointer and a frame pointer. Operands are
taken from the stack and results are pushed onto it. Besides instructions proper, code holds
directives: they switch between segments, place labels and lay out static data.

## Main definitions

* `PostfixCompiler.SymbolClass`: what a public label stands for.
* `PostfixCompiler.Instr`: instructions and directives.
-/

namespace PostfixCompiler

/-- What a public label stands for. -/
inductive SymbolClass where
  /-- A function. -/
  | function
  /-- A variable. -/
  | object
deriving DecidableEq

/-- An instruction or a directive. -/
inductive Instr where
  /-- What follows is code. -/
  | text
  /-- What follows is data with initial values. -/
  | data
  /-- What follows is data that never changes. -/
  | rodata
  /-- What follows is data without initial values. -/
  | bss
  /-- What follows starts at an aligned address. -/
  | align
  /-- A name for the address of what follows. -/
  | label (name : String)
  /-- Other units may use the label. -/
  | global (name : String) (kind : SymbolClass)
  /-- The label is placed in another unit. -/
  | external (name : String)
  /-- A static integer. -/
  | staticInt (value : Int)
  /-- A static double. -/
  | staticDouble (value : Double)
  /-- A static text. -/
  | staticString (value : String)
  /-- The static address of a label. -/
  | staticAddress (label : String)
  /-- Static bytes without initial values. -/
  | staticBytes (size : Nat)
  /-- Pushes an integer. -/
  | int (value : Int)
  /-- Pushes a double. -/
  | double (value : Double)
  /-- Pushes the address of a label. -/
  | address (label : String)
  /-- Pushes the frame pointer plus an offset. -/
  | frameAddress (offset : Int)
  /-- Pushes the stack pointer. -/
  | stackPointer
  /-- Replaces an address by the word there. -/
  | loadInt
  /-- Replaces an address by the double there. -/
  | loadDouble
  /-- Takes an address, and a word below it that goes there. -/
  | storeInt
  /-- Takes an address, and a double below it that goes there. -/
  | storeDouble
  /-- Takes a number of bytes, and reserves as many on the stack. -/
  | alloc
  /-- Pushes the word on top again. -/
  | dupInt
  /-- Pushes the double on top again. -/
  | dupDouble
  /-- Drops bytes. -/
  | trash (size : Nat)
  /-- The sum of two words. -/
  | add
  /-- The difference of two words. -/
  | sub
  /-- The product of two words. -/
  | mul
  /-- The quotient of two words. -/
  | div
  /-- The remainder of two words. -/
  | mod
  /-- The word with the other sign. -/
  | neg
  /-- The sum of two doubles. -/
  | addDouble
  /-- The difference of two doubles. -/
  | subDouble
  /-- The product of two doubles. -/
  | mulDouble
  /-- The quotient of two doubles. -/
  | divDouble
  /-- The double with the other sign. -/
  | negDouble
  /-- Replaces a word by the double with the same value. -/
  | intToDouble
  /-- Whether a word is less than another. -/
  | lt
  /-- Whether a word is less than another, or equal. -/
  | le
  /-- Whether a word is greater than another, or equal. -/
  | ge
  /-- Whether a word is greater than another. -/
  | gt
  /-- Whether two words are equal. -/
  | eq
  /-- Whether two words differ. -/
  | ne
  /-- Replaces two doubles by a word that compares to zero as they compare to each other. -/
  | compareDouble
  /-- The conjunction of two words. -/
  | and
  /-- The disjunction of two words. -/
  | or
  /-- Goes on at a label. -/
  | jump (label : String)
  /-- Takes a word, and goes on at a label if it is zero. -/
  | jumpIfZero (label : String)
  /-- Takes a word, and goes on at a label unless it is zero. -/
  | jumpIfNotZero (label : String)
  /-- Calls the function at a label. -/
  | call (label : String)
  /-- Goes back to the caller. -/
  | «return»
  /-- Sets up a frame with so many bytes. -/
  | enter (size : Nat)
  /-- Gives the frame back. -/
  | leave
  /-- Pushes the word that a function returned. -/
  | loadResultInt
  /-- Pushes the double that a function returned. -/
  | loadResultDouble
  /-- Takes a word, which is what the function returns. -/
  | storeResultInt
  /-- Takes a double, which is what the function returns. -/
  | storeResultDouble
deriving DecidableEq

end PostfixCompiler
