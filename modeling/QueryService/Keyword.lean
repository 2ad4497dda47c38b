import QueryService.Text.Bytes

/-!
# Keywords

The reserved words stand in a table sorted by spelling, and a word is looked up in it by halving.
-/

namespace QueryService

inductive KeywordCategory where
  | definition | query | manipulation | object | logical | function | type | administration | literal
  deriving DecidableEq, Repr

def KeywordCategory.name : KeywordCategory → Bytes
  | .definition => ascii "DDL"
  | .query => ascii "DQL"
  | .manipulation => ascii "DML"
  | .object => ascii "Objects"
  | .logical => ascii "Logical"
  | .function => ascii "Functions"
  | .type => ascii "Types"
  | .administration => ascii "Admin"
  | .literal => ascii "Literals"

structure Keyword where
  lexeme : Bytes
  category : KeywordCategory
  description : Bytes
  deriving DecidableEq, Repr

namespace Keyword

/-- A table in which every lexeme stands strictly before the next. -/
def Sorted (table : Array Keyword) : Prop :=
  table.toList.Pairwise fun a b => a.lexeme < b.lexeme

/-- Compares every lexeme with the next one. -/
def inOrder : List Keyword → Bool
  | a :: b :: rest => a.lexeme < b.lexeme && inOrder (b :: rest)
  | _ => true

/-- The entry with this lexeme among those of a sorted table from `first` up to `last`. -/
def searchBetween (table : Array Keyword) (lexeme : Bytes) (first last : Nat)
    (bound : last ≤ table.size) : Option Keyword :=
  if inside : first < last then
    let middle := first + (last - first) / 2
    have : middle < table.size := by omega
    let entry := table[middle]
    if entry.lexeme = lexeme then some entry
    else if entry.lexeme < lexeme then searchBetween table lexeme (middle + 1) last bound
    else searchBetween table lexeme first middle (by omega)
  else none
termination_by last - first

def search (table : Array Keyword) (lexeme : Bytes) : Option Keyword :=
  searchBetween table lexeme 0 table.size (Nat.le_refl _)

/-- Every keyword, in the order of the lexemes. -/
def table : Array Keyword :=
  let word (lexeme : String) (category : KeywordCategory) (description : String) : Keyword :=
    ⟨ascii lexeme, category, ascii description⟩
  #[
    word "ADD" .manipulation "Adds data or properties",
    word "ALTER" .definition "Alters database objects",
    word "AND" .logical "Logical AND",
    word "ARRAY" .type "Array data type",
    word "ASC" .query "Ascending sort order",
    word "ATTACH" .administration "Attaches an external resource",
    word "AVG" .function "Calculates average",
    word "BETWEEN" .logical "Range comparison",
    word "BOOLEAN" .type "Boolean true/false type",
    word "BTREE" .object "B-tree index type",
    word "BUNDLE" .object "Data bundle/collection",
    word "BUNDLES" .object "Multiple bundles",
    word "BY" .query "Specifies ordering or grouping field",
    word "CONCAT" .function "Concatenates strings",
    word "COUNT" .function "Counts records",
    word "CREATE" .definition "Creates database objects",
    word "DATABASE" .object "Database container",
    word "DATABASES" .object "Multiple databases",
    word "DATE" .type "Date data type",
    word "DELETE" .definition "Deletes database objects",
    word "DESC" .query "Descending sort order",
    word "DOCUMENT" .manipulation "References a document",
    word "DOCUMENTS" .manipulation "References multiple documents",
    word "DROP" .definition "Drops database objects",
    word "EXISTS" .logical "Existence check",
    word "FALSE" .literal "Boolean false",
    word "FIELD" .manipulation "References a bundle field",
    word "FIELDS" .manipulation "Introduces a field list",
    word "FLOAT" .type "Floating point type",
    word "FOR" .administration "Scopes a listing to a database",
    word "FROM" .query "Specifies source bundle/table",
    word "GRANT" .administration "Grants a permission",
    word "GROUP" .query "Groups result set",
    word "HASH" .object "Hash index type",
    word "HAVING" .query "Filters grouped results",
    word "IN" .manipulation "Specifies scope or container",
    word "INDEX" .object "Database index",
    word "INNER" .query "Inner join type",
    word "INSERT" .manipulation "Inserts new data",
    word "INTEGER" .type "Integer number type",
    word "INTO" .manipulation "Specifies insertion target",
    word "INVALIDATE" .administration "Invalidates a session",
    word "IS" .logical "Identity comparison",
    word "JOIN" .query "Joins multiple bundles",
    word "KEY" .object "Key constraint",
    word "LEFT" .query "Left join type",
    word "LENGTH" .function "Gets string length",
    word "LIKE" .logical "Pattern matching",
    word "LIMIT" .query "Limits result count",
    word "LOWER" .function "Converts to lowercase",
    word "MAX" .function "Finds maximum value",
    word "MIN" .function "Finds minimum value",
    word "NOT" .logical "Logical NOT",
    word "NULL" .logical "Null value",
    word "OBJECT" .type "Object data type",
    word "OFFSET" .query "Skips initial results",
    word "ON" .query "Specifies join conditions",
    word "OR" .logical "Logical OR",
    word "ORDER" .query "Orders result set",
    word "OUTER" .query "Outer join type",
    word "PRIMARY" .object "Primary key",
    word "RATE" .administration "Rate limit settings",
    word "RIGHT" .query "Right join type",
    word "SELECT" .query "Retrieves data from bundles",
    word "SESSION" .administration "Client session",
    word "SET" .manipulation "Sets field values",
    word "SHOW" .administration "Lists server objects",
    word "STRING" .type "Text data type",
    word "SUBSTRING" .function "Extracts substring",
    word "SUM" .function "Sums numeric values",
    word "TIME" .type "Time data type",
    word "TIMESTAMP" .type "Timestamp data type",
    word "TO" .manipulation "Specifies target",
    word "TRUE" .literal "Boolean true",
    word "UNIQUE" .object "Unique constraint",
    word "UPDATE" .definition "Updates existing data or structures",
    word "UPPER" .function "Converts to uppercase",
    word "USE" .administration "Selects the active database",
    word "VALUES" .manipulation "Specifies literal values",
    word "WHERE" .query "Filters data based on conditions",
    word "WITH" .manipulation "Specifies additional parameters" ]

theorem sorted_table : Sorted table := by
  unfold Sorted
  decide +kernel

/-- The longest lexemes have ten bytes. -/
def maxLength : Nat := 10

/-- The keyword that a word spells, in any case. A longer word is not worth a search. -/
def lookup (word : Bytes) : Option Keyword :=
  if word.isEmpty || maxLength < word.length then none else search table (Bytes.toUpper word)

end Keyword
end QueryService
