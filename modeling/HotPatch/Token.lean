import HotPatch.Text.Hex

/-!
# Tables and tokens

A token names a row of a metadata table: the table's code in the top byte and
the row number, counted from one, in the other three. Codes outside the nine
known tables are kept as they are, since a module may mention them.
-/

namespace HotPatch

/-- The metadata tables that a module keeps. -/
inductive Table where
  | typeRef | typeDef | field | methodDef | memberRef | customAttribute
  | standAloneSig | typeSpec | methodSpec
  deriving DecidableEq, Repr

namespace Table

def code : Table → Nat
  | typeRef => 0x01
  | typeDef => 0x02
  | field => 0x04
  | methodDef => 0x06
  | memberRef => 0x0A
  | customAttribute => 0x0C
  | standAloneSig => 0x11
  | typeSpec => 0x1B
  | methodSpec => 0x2B

def all : List Table :=
  [typeRef, typeDef, field, methodDef, memberRef, customAttribute, standAloneSig, typeSpec, methodSpec]

def ofCode? (code : Nat) : Option Table := all.find? fun table => table.code == code

theorem ofCode?_code (table : Table) : ofCode? table.code = some table := by cases table <;> rfl

theorem code_of_ofCode? {code : Nat} {table : Table} (h : ofCode? code = some table) :
    table.code = code := by
  simpa using List.find?_some h

def name : Table → String
  | typeRef => "TypeRef"
  | typeDef => "TypeDef"
  | field => "Field"
  | methodDef => "MethodDef"
  | memberRef => "MemberRef"
  | customAttribute => "CustomAttribute"
  | standAloneSig => "StandAloneSig"
  | typeSpec => "TypeSpec"
  | methodSpec => "MethodSpec"

end Table

/-- The code in the tokens of user strings, which live in a heap and not in a table. -/
def userStringCode : Nat := 0x70

structure Token where
  value : UInt32
  deriving DecidableEq, Repr, Hashable, Inhabited

namespace Token

/-- Three bytes hold the row, so at most this many rows of a table can be named. -/
def rowLimit : Nat := 0x1000000

/-- The token of a row of the table with the given code. Row numbers wrap at `rowLimit`. -/
def ofCode (code row : Nat) : Token := ⟨UInt32.ofNat (code * rowLimit + row % rowLimit)⟩

def ofRow (table : Table) (row : Nat) : Token := ofCode table.code row

def tableCode (token : Token) : Nat := token.value.toNat / rowLimit

def table? (token : Token) : Option Table := Table.ofCode? token.tableCode

def row (token : Token) : Nat := token.value.toNat % rowLimit

def isNull (token : Token) : Bool := token.value == 0

def isIn (token : Token) (table : Table) : Bool := token.tableCode == table.code

theorem tableCode_ofCode {code row : Nat} (h : code < 256) : (ofCode code row).tableCode = code := by
  simp only [ofCode, tableCode, rowLimit, UInt32.toNat_ofNat']; omega

theorem row_ofCode (code row : Nat) : (ofCode code row).row = row % rowLimit := by
  simp only [ofCode, Token.row, rowLimit, UInt32.toNat_ofNat']; omega

theorem table?_ofRow (table : Table) (row : Nat) : (ofRow table row).table? = some table := by
  rw [table?, ofRow, tableCode_ofCode (by cases table <;> decide), Table.ofCode?_code]

/-- The eight-digit form. -/
def text (token : Token) : String := "0x" ++ Text.lowerHex 8 token.value.toNat

/-- The form that spells out table and row. -/
def detail (token : Token) : String :=
  "Token(" ++ token.text ++ ", table: 0x" ++ Text.lowerHex 2 token.tableCode ++ ", row: " ++
    toString token.row ++ ")"

end Token
end HotPatch
