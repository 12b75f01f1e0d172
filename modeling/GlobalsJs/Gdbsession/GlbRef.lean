import GlobalsJs.Ecma.Text
import GlobalsJs.Lists.Pieces

/-!
# References to globals in the shell

`parse_glb_ref` reads a command such as `SET name(s1,s2)=data`. It cuts the command at each equals
sign and takes for the data what stands between the first one and the second.
-/

namespace GlobalsJs.Gdbsession

open Ecma Pieces

structure GlbRef where
  global : JsString
  subscripts : List JsString
  data : Option JsString
deriving DecidableEq

def withoutParen (s : JsString) : JsString :=
  if rparen ∈ s.drop (s.length - 1) then (s.splitOn rparen).getD 0 [] else s

def readSubscripts (ss : List JsString) : Option (List JsString) :=
  ss[1]?.map fun s => (withoutParen s).splitOn comma

/-- A command without a blank gives `{ ERROR : 1 }`. -/
def parse_glb_ref (cmd : JsString) : Option GlbRef :=
  if space ∉ cmd then none
  else
    let glb := cmd.drop (cmd.idxOf space + 1)
    let gg := glb.splitOn equals
    let ss := (gg.getD 0 []).splitOn lparen
    some ⟨ss.getD 0 [], (readSubscripts ss).getD [], gg[1]?⟩

theorem readSubscripts_closed {s : JsString} (hs : rparen ∉ s) (name : JsString) :
    readSubscripts [name, s ++ [rparen]] = some (s.splitOn comma) := by
  have hends : rparen ∈ (s ++ [rparen]).drop ((s ++ [rparen]).length - 1) := by simp
  have hwithout : withoutParen (s ++ [rparen]) = s := by
    rw [withoutParen, if_pos hends, List.splitOn_append_cons_self_of_not_mem hs]
    rfl
  rw [readSubscripts, List.getElem?_cons_succ, List.getElem?_cons_zero, Option.map_some, hwithout]

structure SetText where
  word : JsString
  word_units : space ∉ word
  name : JsString
  name_units : lparen ∉ name ∧ equals ∉ name
  subscripts : List JsString
  subscripts_units : ∀ s ∈ subscripts, lparen ∉ s ∧ rparen ∉ s ∧ comma ∉ s ∧ equals ∉ s
  data : JsString

namespace SetText

def place (c : SetText) : JsString :=
  if c.subscripts = [] then c.name
  else c.name ++ lparen :: ([comma].intercalate c.subscripts ++ [rparen])

def text (c : SetText) : JsString := c.word ++ space :: (c.place ++ equals :: c.data)

def Parsed (c : SetText) : Prop := parse_glb_ref c.text = some ⟨c.name, c.subscripts, some c.data⟩

theorem notMem_place (c : SetText) : equals ∉ c.place := by
  have hspec : equals ∉ [comma].intercalate c.subscripts :=
    notMem_intercalate (by decide) fun s hs => (c.subscripts_units s hs).2.2.2
  rw [place]
  split_ifs
  · exact c.name_units.2
  · simp [c.name_units.2, hspec, show equals ≠ lparen by decide, show equals ≠ rparen by decide]

theorem drop_word (c : SetText) : c.text.drop (c.text.idxOf space + 1) = c.place ++ equals :: c.data := by
  have hlen : c.text.idxOf space = c.word.length := by
    rw [text, List.idxOf_append_of_notMem c.word_units, List.idxOf_cons_self, Nat.add_zero]
  rw [hlen, text, List.append_cons]
  exact List.drop_left' (by simp)

theorem parse_text (c : SetText) :
    parse_glb_ref c.text = some ⟨c.name, c.subscripts, some (piece equals 1 c.data)⟩ := by
  have hblank : space ∈ c.text := by simp [text]
  have hdata : (c.data.splitOn equals)[0]? = some (piece equals 1 c.data) := by
    rw [piece, List.getD_eq_getElem?_getD]
    cases hsplit : c.data.splitOn equals with
    | nil => exact absurd hsplit (List.splitOn_ne_nil equals c.data)
    | cons d ds => rfl
  rw [parse_glb_ref, if_neg (not_not.mpr hblank), drop_word]
  simp only [List.splitOn_append_cons_self_of_not_mem c.notMem_place, List.getD_cons_zero,
    List.getElem?_cons_succ, hdata]
  by_cases hsubscripts : c.subscripts = []
  · rw [place, if_pos hsubscripts, List.splitOn_eq_singleton c.name_units.1, hsubscripts]
    rfl
  · have hspec : ∀ u : CodeUnit, u ≠ comma → (∀ s ∈ c.subscripts, u ∉ s) →
        u ∉ [comma].intercalate c.subscripts := fun u hu => notMem_intercalate hu
    have hopen := hspec lparen (by decide) fun s hs => (c.subscripts_units s hs).1
    have hclose := hspec rparen (by decide) fun s hs => (c.subscripts_units s hs).2.1
    have hinner : lparen ∉ [comma].intercalate c.subscripts ++ [rparen] := by
      simpa [show lparen ≠ rparen by decide] using hopen
    rw [place, if_neg hsubscripts, List.splitOn_append_cons_self_of_not_mem c.name_units.1,
      List.splitOn_eq_singleton hinner, readSubscripts_closed hclose c.name,
      List.splitOn_intercalate comma (fun s hs => (c.subscripts_units s hs).2.2.1) hsubscripts]
    rfl

/-- The reference is the one that was typed if the data has no equals sign, and only then. -/
theorem parsed_iff (c : SetText) : c.Parsed ↔ equals ∉ c.data := by
  rw [Parsed, parse_text, Option.some_inj, GlbRef.mk.injEq, Option.some_inj, piece_one_eq_iff]
  simp

/-- `SET x=a=b` sets `x` to `a`. -/
theorem equation_not_parsed :
    ¬ Parsed { word := js "SET", word_units := by decide, name := js "x", name_units := by decide,
               subscripts := [], subscripts_units := by decide, data := js "a=b" } := by
  rw [Parsed]
  decide

end SetText

end GlobalsJs.Gdbsession
