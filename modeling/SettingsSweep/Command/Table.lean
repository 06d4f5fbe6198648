import SettingsSweep.Json.Printer

/-!
Tables of text: columns as wide as their widest cell, two spaces apart.
-/

set_option autoImplicit false

namespace SettingsSweep.Table

def maxCell : Nat := 60

def truncate (limit : Nat) (text : String) : String :=
  if text.length ≤ limit then text
  else String.ofList (text.toList.take (limit - 3)) ++ "..."

/-- A value on one line: text without quotes, all else as compact JSON, cut if it is long. -/
def cell (value : Json) : String :=
  truncate maxCell (match value with | .str s => s | other => other.compact)

def padRight (width : Nat) (text : String) : String :=
  text ++ String.ofList (List.replicate (width - text.length) ' ')

def widths (header : List String) (rows : List (List String)) : List Nat :=
  rows.foldl
    (fun ws row =>
      ws.zipIdx.map fun (w, i) => max w ((row[i]?.map String.length).getD 0))
    (header.map String.length)

def line : List Nat → List String → String
  | _, [] => "\n"
  | _, [last] => last ++ "\n"
  | w :: ws, c :: cs => padRight w c ++ "  " ++ line ws cs
  | [], c :: cs => c ++ "  " ++ line [] cs

def format (header : List String) (rows : List (List String)) : String :=
  if rows.isEmpty then ""
  else
    let ws := widths header rows
    let rule := ws.map fun w => String.ofList (List.replicate w '-')
    String.join ((header :: rule :: rows).map (line ws))

end SettingsSweep.Table
