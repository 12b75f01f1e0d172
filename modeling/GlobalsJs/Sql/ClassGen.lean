import GlobalsJs.Lists.Table
import GlobalsJs.Ecma.Text

/-!
# Generating a class

A class that exposes a collection to SQL has a property and a column for each name it is
given, and an index map for each index. The dictionary of classes is not part of the
repository: it is what answers whether a definition was created, inserted, saved and
compiled. The names are subscripts, and the order of subscripts is the database's.
-/

namespace GlobalsJs.Sql
open Ecma

/-- What stands before the first occurrence of a delimiter. -/
def before (delimiter : JsString) : JsString → JsString
  | [] => []
  | c :: s => if delimiter <+: c :: s then [] else c :: before delimiter s

def after (delimiter : JsString) : JsString → JsString
  | [] => []
  | c :: s => if delimiter <+: c :: s then (c :: s).drop delimiter.length else after delimiter s

def piece₁ (s delimiter : JsString) : JsString := before delimiter s

def piece₂ (s delimiter : JsString) : JsString := before delimiter (after delimiter s)

abbrev Status := Except (List JsString) Unit

structure PropertyDefinition where
  name : JsString
  collection : Option JsString
  type : JsString
  sequenceNumber : ℕ
deriving DecidableEq

structure IndexDefinition where
  name : JsString
  idKey : Bool
  primaryKey : Bool
  unique : Bool
  properties : JsString

structure StorageSQLMapDataDefinition where
  name : JsString
  node : JsString

structure StorageSQLMapRowIdSpecDefinition where
  name : ℕ
  field : JsString
  expression : JsString

structure StorageSQLMapSubDefinition where
  name : ℕ
  expression : JsString

structure StorageSQLMapDefinition where
  name : JsString
  global : JsString
  type : JsString
  populationType : JsString
  data : List StorageSQLMapDataDefinition
  rowIdSpecs : List StorageSQLMapRowIdSpecDefinition
  subscripts : List StorageSQLMapSubDefinition

structure StorageDefinition where
  name : JsString
  type : JsString
  sqlMaps : List StorageSQLMapDefinition

structure ClassDefinition where
  name : JsString
  procedureBlock : Bool
  classVersion : ℕ
  super : JsString
  storageStrategy : JsString
  properties : List PropertyDefinition
  indices : List IndexDefinition
  storages : List StorageDefinition

/-- What the class dictionary answers. -/
structure Dictionary where
  newClass : JsString → Status
  newProperty : JsString → Status
  insertProperty : ClassDefinition → PropertyDefinition → Status
  save : ClassDefinition → Status
  clearStorages : ClassDefinition → Status
  insertStorage : ClassDefinition → StorageDefinition → Status
  compile : JsString → Status

/-- No definition is made for an empty name. -/
def createCDef (dictionary : Dictionary) (className : JsString) :
    Except (List JsString) (Option ClassDefinition) := do
  if className = [] then return none
  dictionary.newClass className
  return some ⟨className, true, 25, [], [], [], [], []⟩

def collectionTypes : List JsString :=
  [js "%ArrayOfDataTypes", js "%ArrayOfObjects", js "%ListOfDataTypes", js "%ListOfObjects"]

def elementType : JsString := js "ELEMENTTYPE=\""

/-- A property of a collection type has the type of the elements. -/
def propertyDefinition (tClassName pType : JsString) (pSeqNo : ℕ) : PropertyDefinition :=
  let type := piece₁ pType (js "(")
  let parameters := piece₂ pType (js "(")
  if elementType <:+: parameters ∧ type ∈ collectionTypes then
    { name := tClassName
      collection := some (if js "%Array" <:+: type then js "array" else js "list")
      type := piece₁ (piece₂ parameters elementType) (js "\"")
      sequenceNumber := pSeqNo }
  else ⟨tClassName, none, type, pSeqNo⟩

/-- The status is printed and not looked at, so a property that fails is left out. -/
def createProperty (dictionary : Dictionary) (pClassName : JsString) (pCDef : ClassDefinition)
    (pName pType : JsString) (pSeqNo : ℕ) : ClassDefinition :=
  let tClassName := pClassName ++ js ":" ++ pName
  let tCDef := propertyDefinition tClassName pType pSeqNo
  match dictionary.newProperty tClassName, dictionary.insertProperty pCDef tCDef with
  | .ok _, .ok _ => { pCDef with properties := pCDef.properties ++ [tCDef] }
  | _, _ => pCDef

def sqlMap (globalName : JsString) (propNames : List JsString) : StorageSQLMapDefinition where
  name := js "SQLMap"
  global := js "^" ++ globalName
  type := js "data"
  populationType := []
  data := propNames.map fun propName => ⟨propName, js "\"" ++ propName ++ js "\""⟩
  rowIdSpecs := [⟨1, js "ID", []⟩]
  subscripts := [⟨1, js "{ID}"⟩]

def sqlIndexMap (globalName indexName : JsString) : StorageSQLMapDefinition where
  name := indexName ++ js "IndexMap"
  global := js "^" ++ globalName ++ js "1gdb"
  type := js "index"
  populationType := js "full"
  data := []
  rowIdSpecs := [⟨1, js "ID", js "{L3}"⟩]
  subscripts := [⟨1, js "\"" ++ indexName ++ js "\""⟩, ⟨2, js "\x7b" ++ indexName ++ js "\x7d"⟩, ⟨3, js "{ID}"⟩]

/-- An exception, after which nothing more is done. -/
inductive Trap
  | undefined
  | subscript
  | invalidOref
deriving DecidableEq

structure Generated where
  definition : Option ClassDefinition
  status : Status

section
variable {κ : Type} [LinearOrder κ] (text : κ → JsString) (dictionary : Dictionary)

def generateSQLStorage (globalName : JsString) (properties indices : Table κ JsString)
    (classdef : ClassDefinition) : ClassDefinition × Status :=
  let name := js "GlobalsJSSQLStorage"
  match dictionary.clearStorages classdef with
  | .error e => (classdef, .error e)
  | .ok _ =>
    let cleared := { classdef with storages := [] }
    match dictionary.insertStorage cleared ⟨name, js "%CacheSQLStorage", []⟩ with
    | .error e => (cleared, .error e)
    | .ok _ =>
      let sqlMaps := sqlMap globalName ((Table.inOrder properties.keys).map text) ::
        (Table.inOrder indices.keys).map fun indexName => sqlIndexMap globalName (text indexName)
      ({ cleared with storages := [⟨name, js "%CacheSQLStorage", sqlMaps⟩] }, .ok ())

def createProperties (classname : JsString) (properties : Table κ JsString)
    (classdef : ClassDefinition) : ClassDefinition :=
  let first := createProperty dictionary classname classdef (js "ID") (js "%Library.String") 1
  ((Table.inOrder properties.keys).foldl (fun (cdef, seq) propname =>
    (createProperty dictionary classname cdef (text propname) ((properties.lookup propname).getD [])
      (seq + 1), seq + 1)) (first, 1)).1

def idIndex : IndexDefinition := ⟨js "IDIndex", true, true, true, js "ID"⟩

def generateClass (classname : JsString) (properties indicies : Table κ JsString)
    (globalname : JsString) : Except Trap Generated :=
  match createCDef dictionary classname with
  | .error e => .ok ⟨none, .error e⟩
  | .ok none => .error .invalidOref
  | .ok (some cdef) =>
    let based := { cdef with super := js "%Persistent", storageStrategy := js "GlobalsJSSQLStorage" }
    let classdef := { createProperties text dictionary classname properties based with
      indices := [idIndex] }
    match dictionary.save classdef with
    | .error e => .ok ⟨some classdef, .error e⟩
    | .ok _ =>
      match generateSQLStorage text dictionary globalname properties indicies classdef with
      | (stored, .error e) => .ok ⟨some stored, .error e⟩
      | (stored, .ok _) =>
        match dictionary.save stored with
        | .error e => .ok ⟨some stored, .error e⟩
        | .ok _ => .ok ⟨some stored, dictionary.compile classname⟩

variable {text dictionary} {classname globalname : JsString} {properties indicies : Table κ JsString}

theorem generateClass_congr {properties' indicies' : Table κ JsString}
    (hproperties : Table.Same properties properties') (hindicies : Table.Same indicies indicies') :
    generateClass text dictionary classname properties indicies globalname =
      generateClass text dictionary classname properties' indicies' globalname := by
  have hnames := Table.inOrder_congr hproperties.mem_keys
  have htypes : ∀ k, properties.lookup k = properties'.lookup k := hproperties
  have hindexes := Table.inOrder_congr hindicies.mem_keys
  simp only [generateClass, createProperties, generateSQLStorage, hnames, htypes, hindexes]

theorem generateSQLStorage_ok {cdef stored : ClassDefinition} {u : Unit}
    (h : generateSQLStorage text dictionary globalname properties indicies cdef = (stored, .ok u)) :
    stored.storages.map StorageDefinition.sqlMaps =
      [sqlMap globalname ((Table.inOrder properties.keys).map text) ::
        (Table.inOrder indicies.keys).map fun name => sqlIndexMap globalname (text name)] := by
  unfold generateSQLStorage at h
  dsimp only at h
  cases hclear : dictionary.clearStorages cdef with
  | error e => rw [hclear] at h; cases h
  | ok _ =>
    rw [hclear] at h
    dsimp only at h
    split at h
    · cases h
    · cases h
      rfl

theorem generateClass_maps {g : Generated}
    (h : generateClass text dictionary classname properties indicies globalname = .ok g)
    (hok : g.status = .ok ()) :
    ∃ cdef, g.definition = some cdef ∧ cdef.storages.map StorageDefinition.sqlMaps =
      [sqlMap globalname ((Table.inOrder properties.keys).map text) ::
        (Table.inOrder indicies.keys).map fun name => sqlIndexMap globalname (text name)] := by
  unfold generateClass at h
  dsimp only at h
  split at h
  · cases h; cases hok
  · cases h
  · split at h
    · cases h; cases hok
    · split at h
      · cases h; cases hok
      · rename_i hstored
        split at h
        · cases h; cases hok
        · cases h
          exact ⟨_, rfl, generateSQLStorage_ok hstored⟩

end

end GlobalsJs.Sql
