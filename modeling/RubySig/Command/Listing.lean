import RubySig.Data.Datum

/-! Data as a tree of labels. -/
namespace RubySig

inductive Listing where
  | entry (label : String) (below : List Listing)

namespace Listing

/-- The label of a dictionary: its own, and its type if it has one. -/
def heading (label : String) (entries : List (Scalar × Datum)) : String :=
  match Datum.get? entries "type" with
  | none => label
  | some (.scalar (.str kind)) => if kind.isEmpty then label else label ++ ": " ++ kind
  | some d => if d.isEmpty then label else label ++ ": " ++ d.text

mutual

/-- The listing of a value; empty lists are left out. -/
def ofDatum (label : String) : Datum → List Listing
  | .scalar s => [.entry (label ++ " = " ++ s.text) []]
  | .list items =>
    if items.isEmpty then []
    else [.entry (label ++ " (" ++ toString items.length ++ ")") (ofItems 0 items)]
  | .dict entries => [.entry (heading label entries) (ofEntries entries)]

def ofItems (index : Nat) : List Datum → List Listing
  | [] => []
  | d :: ds => ofDatum ("[" ++ toString index ++ "]") d ++ ofItems (index + 1) ds

/-- The listings of the entries; the type stands in the heading already. -/
def ofEntries : List (Scalar × Datum) → List Listing
  | [] => []
  | (.str key, d) :: rest => (if key == "type" then [] else ofDatum key d) ++ ofEntries rest
  | (_, _) :: rest => ofEntries rest

end

def ofRoot (data : Datum) : Listing :=
  match data with
  | .dict entries =>
    match Datum.get? entries "declarations" with
    | some (.list declarations) => .entry "Root" (ofItems 0 declarations)
    | _ => .entry "Root" []
  | _ => .entry "Root" []

end Listing
end RubySig
