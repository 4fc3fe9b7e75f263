import Indentation.Value.Basic

/-! The configuration that comes with the Java front end. -/

namespace Indentation.Java.Bundled

private def texts (names : List String) : Value := .list (names.map .str)

private def table (entries : List (String × String)) : Value :=
  .obj (entries.map fun (key, text) => (key, .str text))

/-- Places of controlled statements: `if condition statement else statement`,
`while condition statement`, `do statement while condition`. -/
def grammar : Value :=
  .obj [("if_then", .int 2), ("if_else", .int 4), ("while_body", .int 2), ("do_while_body", .int 1)]

def nodeKinds : Value :=
  table [("program", "source_unit"), ("block", "block"), ("constructor_body", "block"),
    ("switch_block", "block"), ("class_body", "contract_definition"),
    ("interface_body", "contract_definition"), ("annotation_type_body", "contract_definition"),
    ("enum_body", "enum_definition"), ("if_statement", "if_statement"),
    ("while_statement", "while_statement"), ("do_statement", "do_while_statement"),
    ("for_statement", "for_statement"), ("enhanced_for_statement", "for_statement")]

def statementParents : Value :=
  texts ["block", "constructor_body", "if_statement", "while_statement", "do_statement",
    "for_statement", "enhanced_for_statement", "labeled_statement", "switch_block_statement_group"]

def statementTypes : Value :=
  texts ["block", "if_statement", "while_statement", "do_statement", "for_statement",
    "enhanced_for_statement", "expression_statement", "local_variable_declaration",
    "return_statement", "throw_statement", "break_statement", "continue_statement",
    "yield_statement", "assert_statement", "try_statement", "try_with_resources_statement",
    "switch_expression", "synchronized_statement", "labeled_statement", "local_class_declaration",
    "class_declaration"]

/-- Members after the constants of an enum stand directly between its braces. -/
def splicedChildren : Value := .obj [("enum_body", texts ["enum_body_declarations"])]

def config : Value :=
  .obj [("name", .str "java"), ("version", .str "1.0.0"),
    ("description", .str "Java front end for the indentation checker (tree-sitter-java)"),
    ("file_extensions", texts [".java"]), ("grammar", grammar), ("node_kinds", nodeKinds),
    ("statement_parents", statementParents), ("statement_types", statementTypes),
    ("spliced_children", splicedChildren)]

end Indentation.Java.Bundled
