import GlobalsJs.Cache.Disk
import GlobalsJs.Ecma.JsonLength
import GlobalsJs.Lists.Table

/-!
# An array as JSON text

`simpleArrayToJSON` puts the keys and the values of an array between quotes as they are. The
subscripts come in the order of the database.
-/

namespace GlobalsJs.Noble

open Ecma Json

section
variable {κ : Type} [LinearOrder κ] (text : κ → JsString)

def entry (array : Table κ JsString) (k : κ) : JsString :=
  quote :: text k ++ [quote, colon, quote] ++ (array.lookup k).getD [] ++ [quote]

def addEntries (array : Table κ JsString) : ℕ → Option κ → JsString → JsString
  | fuel + 1, some k, json =>
    let json := json ++ entry text array k
    let k := Table.order array.keys (some k)
    let json := if k.isSome then json ++ [comma] else json
    addEntries array fuel k json
  | _, _, json => json

def simpleArrayToJSON (array : Table κ JsString) : JsString :=
  let k := Table.order array.keys none
  let json := [lbrace]
  let json := addEntries text array array.keys.length k json
  json ++ [rbrace]

def ReadsBack (array : Table κ JsString) (json : JsString) : Prop :=
  ∃ ps, parse json = some (.obj ps) ∧
    ∀ s v, get ps s = some v ↔ ∃ k x, array.lookup k = some x ∧ s = text k ∧ v = .str x

/-- No quote, no backslash and no control character in a key or a value. -/
def PlainArray (array : Table κ JsString) : Prop :=
  ∀ k x, array.lookup k = some x → (text k).all isPlain ∧ x.all isPlain

def members (array : Table κ JsString) : Props :=
  (Table.inOrder array.keys).map fun k => (text k, .str ((array.lookup k).getD []))

variable {text}

theorem mem_members {array : Table κ JsString} {s : JsString} {v : Json} :
    (s, v) ∈ members text array ↔ ∃ k x, array.lookup k = some x ∧ s = text k ∧ v = .str x := by
  simp only [members, List.mem_map, Table.mem_inOrder]
  constructor
  · intro ⟨k, hk, heq⟩
    obtain ⟨x, hx⟩ := Option.isSome_iff_exists.mp (AList.lookup_isSome.mpr (AList.mem_keys.mp hk))
    obtain ⟨rfl, rfl⟩ := Prod.mk.inj heq
    exact ⟨k, x, hx, rfl, by rw [hx]; rfl⟩
  · intro ⟨k, x, hx, hs, hv⟩
    have hk : k ∈ array.keys := AList.mem_keys.mp (AList.lookup_isSome.mp (by rw [hx]; rfl))
    exact ⟨k, hk, by rw [hs, hv, hx]; rfl⟩

theorem keys_members_nodup (htext : Function.Injective text) (array : Table κ JsString) :
    (keys (members text array)).Nodup := by
  rw [keys, members, List.map_map]
  exact List.Nodup.map htext ((Table.walk_sorted _ _ _).1.imp ne_of_lt)

theorem addEntries_eq {array : Table κ JsString} {fuel : ℕ} {x : Option κ} (json : JsString)
    (hfuel : (Table.above array.keys x).length ≤ fuel) :
    addEntries text array fuel (Table.order array.keys x) json =
      json ++ [comma].intercalate ((Table.walk array.keys fuel x).map (entry text array)) := by
  induction fuel generalizing x json with
  | zero =>
    have hnone : Table.order array.keys x = none :=
      Table.order_eq_none.mpr (List.length_eq_zero_iff.mp (Nat.le_zero.mp hfuel))
    simp [addEntries, Table.walk]
  | succ fuel ih =>
    rw [Table.walk]
    cases hnext : Table.order array.keys x with
    | none => simp [addEntries]
    | some k =>
      have hshort := Table.above_shorter hnext
      have hless : (Table.above array.keys (some k)).length ≤ fuel := by omega
      rw [addEntries, ih _ hless]
      dsimp only
      cases hlater : Table.order array.keys (some k) with
      | none =>
        rw [(Table.walk_eq_nil hless).mpr hlater]
        simp
      | some l =>
        have hwalk : Table.walk array.keys fuel (some k) ≠ [] := by
          rw [Ne, Table.walk_eq_nil hless, hlater]
          exact Option.some_ne_none l
        obtain ⟨m, ms, hms⟩ := List.exists_cons_of_ne_nil hwalk
        rw [hms, List.map_cons, List.map_cons, List.map_cons, List.intercalate_cons_cons]
        simp

theorem simpleArrayToJSON_eq (array : Table κ JsString) : simpleArrayToJSON text array =
    lbrace :: ([comma].intercalate ((Table.inOrder array.keys).map (entry text array)) ++ [rbrace]) := by
  rw [simpleArrayToJSON, addEntries_eq _ (List.length_filter_le _ _)]
  rfl

theorem entries_length {array : Table κ JsString} {ks : List κ} (hks : ks ≠ []) :
    ([comma].intercalate (ks.map (entry text array)) ++ [rbrace]).length =
      membersRoom (ks.map fun k => (text k, .str ((array.lookup k).getD []))) := by
  induction ks with
  | nil => exact absurd rfl hks
  | cons k ks ih =>
    have hentry : (entry text array k).length = (text k).length + ((array.lookup k).getD []).length + 5 := by
      simp only [entry, List.length_append, List.length_cons, List.length_nil]
      omega
    rw [List.map_cons, membersRoom, List.map_cons, List.map_cons, List.sum_cons]
    cases ks with
    | nil =>
      simp only [List.map_nil, List.intercalate_singleton, List.length_append, hentry, List.length_cons,
        List.length_nil, List.sum_nil, room]
      omega
    | cons l ks =>
      have hrest := ih (List.cons_ne_nil l ks)
      rw [List.map_cons, membersRoom, List.length_append] at hrest
      rw [List.map_cons, List.intercalate_cons_cons]
      simp only [List.length_append, hentry, List.length_cons, List.length_nil, room] at hrest ⊢
      omega

theorem plain_of_reads_back (htext : Function.Injective text) {array : Table κ JsString}
    (h : ReadsBack text array (simpleArrayToJSON text array)) : PlainArray text array := by
  obtain ⟨ps, hparse, hget⟩ := h
  intro k x hx
  have hmem : (text k, Json.str x) ∈ members text array := mem_members.mpr ⟨k, x, hx, rfl, rfl⟩
  rw [simpleArrayToJSON_eq] at hparse
  refine plain_of_parse hparse ?_ ?_ ?_ _ hmem
  · exact (keys_members_nodup htext array).of_map _
  · intro e he
    exact (hget _ _).mpr (mem_members.mp he)
  · have hne : Table.inOrder array.keys ≠ [] := by
      intro hnil
      rw [members, hnil] at hmem
      cases hmem
    exact (entries_length hne).le

theorem simpleArrayToJSON_plain {array : Table κ JsString} (h : PlainArray text array) :
    simpleArrayToJSON text array = stringify (.obj (members text array)) := by
  have hentry : ∀ k ∈ Table.inOrder array.keys, entry text array k =
      quoted (text k) ++ colon :: stringify (.str ((array.lookup k).getD [])) := by
    intro k hk
    obtain ⟨x, hx⟩ := Option.isSome_iff_exists.mp (AList.lookup_isSome.mpr
      (AList.mem_keys.mp (Table.mem_inOrder.mp hk)))
    obtain ⟨hkey, hvalue⟩ := h k x hx
    rw [entry, hx, Option.getD_some, stringify, quoted_plain hkey, quoted_plain hvalue]
    simp
  rw [simpleArrayToJSON_eq, stringify, stringifyProps_eq, members, List.map_map, List.map_congr_left hentry]
  rfl

theorem reads_back_of_plain (htext : Function.Injective text) {array : Table κ JsString}
    (h : PlainArray text array) : ReadsBack text array (simpleArrayToJSON text array) := by
  have hnodup := keys_members_nodup htext array
  have hwf : (Json.obj (members text array)).WF := by
    refine ⟨hnodup, ?_⟩
    rw [members]
    induction Table.inOrder array.keys with
    | nil => trivial
    | cons k ks ih => exact ⟨trivial, ih⟩
  refine ⟨members text array, ?_, fun s v => ?_⟩
  · rw [simpleArrayToJSON_plain h, parse_stringify hwf]
  · rw [get_eq_some_iff hnodup, mem_members]

/-- The text is read back exactly when nothing in the array would have to be escaped. -/
theorem simpleArrayToJSON_reads_back_iff (htext : Function.Injective text) (array : Table κ JsString) :
    ReadsBack text array (simpleArrayToJSON text array) ↔ PlainArray text array :=
  ⟨plain_of_reads_back htext, reads_back_of_plain htext⟩

end

section
open Cache (Subscript)

def response (request targetConfigNames eres ts : JsString) : Table Subscript JsString :=
  (((AList.singleton ⟨js "raw_request"⟩ request).insert ⟨js "targetConfigNames"⟩ targetConfigNames).insert
    ⟨js "eres"⟩ eres).insert ⟨js "ts"⟩ ts

/-- `deliver` stands for the business service: what it answers, or the text of its error. -/
def onRequest (deliver : JsString → JsString → Except JsString JsString) (ts : JsString)
    (request targetConfigNames : JsString) : JsString :=
  match deliver targetConfigNames request with
  | .ok eres => simpleArrayToJSON Subscript.text (response request targetConfigNames eres ts)
  | .error displayString => js "\x7berror:\"" ++ displayString ++ js "\"\x7d"

theorem text_injective : Function.Injective Subscript.text := by
  intro ⟨s⟩ ⟨t⟩ h
  exact congrArg Subscript.mk h

theorem quote_mem_stringify {ps : Props} (hps : ps ≠ []) : quote ∈ stringify (.obj ps) := by
  obtain ⟨⟨k, v⟩, ps, rfl⟩ := List.exists_cons_of_ne_nil hps
  have hquoted : quote ∈ quoted k := List.mem_cons_self
  rw [stringify, stringifyProps_eq]
  cases ps <;> simp [hquoted]

theorem not_plain_quote {s : JsString} (h : quote ∈ s) : ¬ s.all isPlain = true := by
  intro hall
  exact absurd (List.all_eq_true.mp hall quote h) (by decide)

theorem onRequest_never_reads_back {deliver : JsString → JsString → Except JsString JsString}
    {ts targetConfigNames eres : JsString} {ps : Props} (hps : ps ≠ [])
    (h : deliver targetConfigNames (stringify (.obj ps)) = .ok eres) :
    ¬ ReadsBack Subscript.text (response (stringify (.obj ps)) targetConfigNames eres ts)
      (onRequest deliver ts (stringify (.obj ps)) targetConfigNames) := by
  rw [onRequest, h]
  intro hback
  have hplain := plain_of_reads_back text_injective hback ⟨js "raw_request"⟩ (stringify (.obj ps)) rfl
  exact not_plain_quote (quote_mem_stringify hps) hplain.2

def rawRequest : Table Subscript JsString :=
  AList.singleton ⟨js "raw_request"⟩ (js "\x7b\"a\":1\x7d")

theorem simpleArrayToJSON_rawRequest_iff :
    ReadsBack Subscript.text rawRequest (simpleArrayToJSON Subscript.text rawRequest) ↔
      PlainArray Subscript.text rawRequest :=
  simpleArrayToJSON_reads_back_iff text_injective rawRequest

theorem simpleArrayToJSON_rawRequest : ¬ ∀ array : Table Subscript JsString,
    ReadsBack Subscript.text array (simpleArrayToJSON Subscript.text array) := by
  intro h
  have hplain := plain_of_reads_back text_injective (h rawRequest) ⟨js "raw_request"⟩ _ rfl
  exact not_plain_quote (by decide) hplain.2

end

end GlobalsJs.Noble
