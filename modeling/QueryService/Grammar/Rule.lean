import QueryService.Ascending
import QueryService.Grammar.Element

/-!
# Statement rules

Each form of a statement is one rule: a pattern that begins with a keyword and ends with a semicolon.
-/

namespace QueryService

namespace Element

def word (text : String) : Element :=
  { slot := .terminal .keyword, wording := .exactly (ascii text) }

def optionalWord (text : String) : Element := { word text with optional := true }

def mark (terminal : Terminal) : Element := { slot := .terminal terminal }

def star : Element := { slot := .terminal .wildcard, wording := .exactly (ascii "*") }

def named (placeholder : String) : Element :=
  { slot := .name, placeholder := ascii placeholder }

def conditions (placeholder : String) : Element :=
  { slot := .expression, placeholder := ascii placeholder, repeatable := true }

def optionalConditions : Element := { conditions "CONDITIONS" with optional := true }

def body (placeholder : String) : Element :=
  { slot := .record, placeholder := ascii placeholder, repeatable := true }

def permission (placeholder : String) : Element :=
  { slot := .record, placeholder := ascii placeholder }

def direction : Element :=
  { slot := .terminal .keyword, wording := .oneOf [ascii "ASC", ascii "DESC"], optional := true }

/-- The word is no keyword, so that a bundle may be called users. -/
def usersWord : Element :=
  { slot := .terminal .identifier, wording := .exactly (ascii "USERS") }

end Element

structure Rule where
  name : Bytes
  description : Bytes
  pattern : List Element
  examples : List Bytes
  deriving DecidableEq, Repr

namespace Rule

open Element

/-- The word that begins every statement of this form. -/
def leading (r : Rule) : Bytes :=
  match r.pattern.head? with
  | some { wording := .exactly word, .. } => word
  | _ => []

def form (title description : String) (pattern : List Element) (sample : String) : Rule :=
  ⟨ascii title, ascii description, pattern, [ascii sample]⟩

/-- Every rule. Where several accept a statement, the first of them is the one reported. -/
def table : List Rule :=
  [
    form "CREATE_DATABASE" "Create a new database"
      [word "CREATE", word "DATABASE", named "DATABASE_NAME", mark .semicolon]
      "CREATE DATABASE \"my_database\";",
    form "DELETE_DATABASE" "Delete an existing database"
      [word "DELETE", word "DATABASE", named "DATABASE_NAME", mark .semicolon]
      "DELETE DATABASE \"old_database\";",
    form "SELECT_DATABASES" "Select databases matching a name"
      [word "SELECT", word "DATABASES", named "DATABASE_NAME", mark .semicolon]
      "SELECT DATABASES \"production\";",
    form "USE_DATABASE" "Switch the active database"
      [word "USE", named "DATABASE_NAME", mark .semicolon]
      "USE \"production\";",
    form "CREATE_BUNDLE" "Create a new bundle with field definitions"
      [word "CREATE", word "BUNDLE", named "BUNDLE_NAME", word "WITH", word "FIELDS", mark .parenOpen,
        body "FIELD_DEFINITIONS", mark .parenClose, mark .semicolon]
      ("CREATE BUNDLE \"users\" WITH FIELDS (\x7b\"name\", STRING, true, " ++
        "false\x7d, \x7b\"email\", STRING, true, true\x7d);"),
    form "DELETE_BUNDLE" "Delete an existing bundle"
      [word "DELETE", word "BUNDLE", named "BUNDLE_NAME", mark .semicolon]
      "DELETE BUNDLE \"old_bundle\";",
    form "UPDATE_BUNDLE" "Change the field definitions of a bundle"
      [word "UPDATE", word "BUNDLE", named "BUNDLE_NAME", mark .bracketOpen, body "UPDATE_OPERATIONS",
        mark .bracketClose, mark .semicolon]
      "UPDATE BUNDLE \"users\" [ADD FIELD \"age\" INTEGER];",
    form "INSERT_DOCUMENT" "Add a document to a bundle"
      [word "ADD", word "DOCUMENT", word "TO", word "BUNDLE", named "BUNDLE_NAME", word "WITH",
        mark .parenOpen, body "KEY_VALUE_PAIRS", mark .parenClose, mark .semicolon]
      "ADD DOCUMENT TO BUNDLE \"users\" WITH (\x7bname=\"John\", age=25\x7d);",
    form "SELECT_DOCUMENTS" "Select all documents from a bundle"
      [word "SELECT", word "DOCUMENTS", word "FROM", named "BUNDLE_NAME", mark .semicolon]
      "SELECT DOCUMENTS FROM \"users\";",
    form "SELECT_DOCUMENTS_WHERE" "Select documents matching conditions"
      [word "SELECT", word "DOCUMENTS", word "FROM", named "BUNDLE_NAME", word "WHERE",
        conditions "CONDITIONS", mark .semicolon]
      "SELECT DOCUMENTS FROM \"users\" WHERE age > 18;",
    form "SELECT_ALL" "Select every document from a bundle"
      [word "SELECT", star, word "FROM", named "BUNDLE_NAME", mark .semicolon]
      "SELECT * FROM \"users\";",
    form "SELECT_ALL_WHERE" "Select every document matching conditions"
      [word "SELECT", star, word "FROM", named "BUNDLE_NAME", word "WHERE", conditions "CONDITIONS",
        mark .semicolon]
      "SELECT * FROM \"users\" WHERE active = true;",
    form "SELECT_WITH_JOIN" "Select documents joined across bundles"
      [word "SELECT", word "DOCUMENTS", word "FROM", named "BUNDLE_NAME", word "JOIN",
        named "OTHER_BUNDLE", word "ON", conditions "JOIN_CONDITIONS", optionalWord "WHERE",
        optionalConditions, mark .semicolon]
      ("SELECT DOCUMENTS FROM \"users\" JOIN \"profiles\" ON users.id = " ++
        "profiles.user_id WHERE users.active = true;"),
    form "SELECT_ORDER_BY" "Select documents in a given order"
      [word "SELECT", word "DOCUMENTS", word "FROM", named "BUNDLE_NAME", optionalWord "WHERE",
        optionalConditions, word "ORDER", word "BY", named "FIELD_NAME", direction, mark .semicolon]
      "SELECT DOCUMENTS FROM \"users\" WHERE active = true ORDER BY name ASC;",
    form "SELECT_GROUP_BY" "Select documents grouped by a field"
      [word "SELECT", word "DOCUMENTS", word "FROM", named "BUNDLE_NAME", optionalWord "WHERE",
        optionalConditions, word "GROUP", word "BY", named "FIELD_NAME", mark .semicolon]
      "SELECT DOCUMENTS FROM \"orders\" WHERE status = \"completed\" GROUP BY customer_id;",
    form "SELECT_FIELDS" "Select field expressions from a bundle"
      [word "SELECT", conditions "FIELD_LIST", word "FROM", named "BUNDLE_NAME", optionalWord "WHERE",
        optionalConditions, mark .semicolon]
      "SELECT name, COUNT(id) FROM \"users\" WHERE age > 18;",
    form "UPDATE_DOCUMENTS" "Update documents matching conditions"
      [word "UPDATE", word "DOCUMENTS", word "IN", word "BUNDLE", named "BUNDLE_NAME", mark .parenOpen,
        body "KEY_VALUE_UPDATES", mark .parenClose, word "WHERE", conditions "CONDITIONS",
        mark .semicolon]
      "UPDATE DOCUMENTS IN BUNDLE \"users\" (\x7bname=\"Jane\", age=30\x7d) WHERE id = 1;",
    form "DELETE_DOCUMENTS" "Delete documents matching conditions"
      [word "DELETE", word "DOCUMENTS", word "FROM", word "BUNDLE", named "BUNDLE_NAME", word "WHERE",
        conditions "CONDITIONS", mark .semicolon]
      "DELETE DOCUMENTS FROM BUNDLE \"users\" WHERE active = false;",
    form "CREATE_BTREE_INDEX" "Create a B-tree index over one or more fields"
      [word "CREATE", word "BTREE", word "INDEX", named "INDEX_NAME", word "ON", word "BUNDLE",
        named "BUNDLE_NAME", mark .parenOpen, body "FIELD_NAMES", mark .parenClose, mark .semicolon]
      "CREATE BTREE INDEX \"user_name_idx\" ON BUNDLE \"users\" (name, email);",
    form "CREATE_HASH_INDEX" "Create a hash index over one field"
      [word "CREATE", word "HASH", word "INDEX", named "INDEX_NAME", word "ON", word "BUNDLE",
        named "BUNDLE_NAME", mark .parenOpen, named "FIELD_NAME", mark .parenClose, mark .semicolon]
      "CREATE HASH INDEX \"user_id_idx\" ON BUNDLE \"users\" (id);",
    form "SHOW_DATABASES" "List all databases"
      [word "SHOW", word "DATABASES", mark .semicolon]
      "SHOW DATABASES;",
    form "SHOW_BUNDLES" "List bundles in the active database"
      [word "SHOW", word "BUNDLES", mark .semicolon]
      "SHOW BUNDLES;",
    form "SHOW_BUNDLES_FOR_DATABASE" "List bundles in a named database"
      [word "SHOW", word "BUNDLES", word "FOR", named "DATABASE_NAME", mark .semicolon]
      "SHOW BUNDLES FOR \"production\";",
    form "SHOW_BUNDLE" "Describe one bundle"
      [word "SHOW", word "BUNDLE", named "BUNDLE_NAME", mark .semicolon]
      "SHOW BUNDLE \"users\";",
    form "SHOW_USERS" "List server users"
      [word "SHOW", usersWord, mark .semicolon]
      "SHOW USERS;",
    form "SHOW_RATE_LIMIT" "Show the current rate limit"
      [word "SHOW", word "RATE", word "LIMIT", mark .semicolon]
      "SHOW RATE LIMIT;",
    form "GRANT_PERMISSION" "Grant a permission on a resource"
      [word "GRANT", permission "PERMISSION_TYPE", word "ON", named "RESOURCE", word "TO",
        named "USER_OR_ROLE", mark .semicolon]
      "GRANT READ ON \"users\" TO \"analyst_role\";",
    form "ATTACH_RESOURCE" "Attach an external resource"
      [word "ATTACH", body "RESOURCE_SPECIFICATION", mark .semicolon]
      "ATTACH DATABASE \"/path/to/external.db\";",
    form "INVALIDATE_SESSION" "Invalidate the current session"
      [word "INVALIDATE", word "SESSION", mark .semicolon]
      "INVALIDATE SESSION;",
    form "INVALIDATE_SESSION_ID" "Invalidate a session by id"
      [word "INVALIDATE", word "SESSION", named "SESSION_ID", mark .semicolon]
      "INVALIDATE SESSION \"session-123-abc\";" ]

def find? (title : Bytes) : Option Rule := table.find? (·.name == title)

/-- The rules whose leading word begins a statement, the first word reaching to the first space. -/
def candidates (statement : Bytes) : List Rule :=
  let first := statement.takeWhile (· != Byte.space)
  if first.isEmpty then [] else table.filter fun r => Bytes.sameWord r.leading first

/-- The leading words of all rules, in alphabetical order. -/
def starters : List Bytes := Ascending.ofList (table.map leading)

end Rule
end QueryService
