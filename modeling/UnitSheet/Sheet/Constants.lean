import UnitSheet.Sheet.Basic

namespace UnitSheet

/-- A constant by its expression and the expression of its unit. -/
structure ConstantSource where
  name : String
  value : String
  unit : String := ""
deriving DecidableEq

namespace ConstantSource

def defaults : List ConstantSource :=
  [⟨"e_c", "1.602176634\\cdot 10^\x7b-19\x7d", "\\C"⟩,
   ⟨"e_0", "8.8541878128\\cdot 10^\x7b-12\x7d", "\\frac\x7b\\F\x7d\x7b\\m\x7d"⟩,
   ⟨"k_e", "8.9875517923\\cdot 10^\x7b9\x7d", "\\frac\x7b\\N\\m^2\x7d\x7b\\C^2\x7d"⟩,
   ⟨"c", "2.99792458\\cdot 10^\x7b8\x7d", "\\frac\x7b\\m\x7d\x7b\\s\x7d"⟩,
   ⟨"m_e", "9.1093837015\\cdot 10^\x7b-31\x7d", "\\kg"⟩,
   ⟨"m_p", "1.67262192369\\cdot 10^\x7b-27\x7d", "\\kg"⟩,
   ⟨"m_n", "1.67492749804\\cdot 10^\x7b-27\x7d", "\\kg"⟩,
   ⟨"C_K", "273.15", "\\K"⟩,
   ⟨"h", "6.62607015\\cdot 10^\x7b-34\x7d", "\\J\\s"⟩,
   ⟨"a_0", "5.29177210903\\cdot 10^\x7b-11\x7d", "\\m"⟩,
   ⟨"N_A", "6.02214076\\cdot 10^\x7b23\x7d", "\\mol^\x7b-1\x7d"⟩,
   ⟨"R", "8.314462618", "\\frac\x7b\\J\x7d\x7b\\K\\mol\x7d"⟩]

end ConstantSource

namespace Sheet

/-- The numbers that need no expression: the base of natural logarithms and the imaginary unit. -/
def numbers : Bindings :=
  .ofPairs [("e", .scalar ⟨ComplexFloat.eulerNumber, 0, .none, 0⟩), ("i", .scalar ⟨0, 1, .none, 0⟩)]

def insertConstants (sources : List ConstantSource) : Update Stop Unit :=
  sources.forM fun c => discard (insertConstant c.name c.value c.unit)

/-- A new sheet with the constants given, after the default ones if they are asked for. -/
def new (nesting depth : Int) (constants : List ConstantSource) (withDefaults : Bool) :
    Except Stop Unit × Sheet :=
  let empty : Sheet := { nesting, depth }
  if withDefaults then
    insertConstants (ConstantSource.defaults ++ constants) { empty with constants := numbers }
  else insertConstants constants empty

end Sheet

end UnitSheet
