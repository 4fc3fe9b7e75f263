/-! The node kinds that indentation rules tell apart. -/

namespace Indentation

inductive Kind where
  | sourceUnit
  | contractDefinition
  | structDefinition
  | enumDefinition
  | importDirective
  | functionCallArguments
  | block
  | statement
  | ifStatement
  | whileStatement
  | doWhileStatement
  | forStatement
  | terminal
  | other
  deriving DecidableEq, Repr, Nonempty

namespace Kind

def name : Kind → String
  | sourceUnit => "source_unit"
  | contractDefinition => "contract_definition"
  | structDefinition => "struct_definition"
  | enumDefinition => "enum_definition"
  | importDirective => "import_directive"
  | functionCallArguments => "function_call_arguments"
  | block => "block"
  | statement => "statement"
  | ifStatement => "if_statement"
  | whileStatement => "while_statement"
  | doWhileStatement => "do_while_statement"
  | forStatement => "for_statement"
  | terminal => "terminal"
  | other => "other"

def all : List Kind :=
  [sourceUnit, contractDefinition, structDefinition, enumDefinition, importDirective,
    functionCallArguments, block, statement, ifStatement, whileStatement, doWhileStatement,
    forStatement, terminal, other]

def choices : List (String × Kind) := all.map fun kind => (kind.name, kind)

def ofName? (s : String) : Option Kind := all.find? (·.name = s)

theorem ofName?_name (kind : Kind) : ofName? kind.name = some kind := by
  cases kind <;> rfl

end Kind
end Indentation
