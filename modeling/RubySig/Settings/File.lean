import RubySig.Settings.Basic
import RubySig.Yaml.Read

/-! Options in a file: at the top level, or below the key `format`. -/
namespace RubySig.Settings

/-- The options in parsed data; empty data have none. -/
def ofDocument (path : String) (data : Datum) : Except Fault Settings :=
  if data.isEmpty then .ok standard
  else match data with
    | .dict entries => ofDatum ((Datum.get? entries "format").getD data)
    | _ => .error (.notMapping path)

/-- The options that the text of a file asks for, by a reader of data. -/
def ofFile (data? : String → Option Datum) (path text : String) : Except Fault Settings :=
  match data? text with
  | some data => ofDocument path data
  | none => .error .unreadable

def ofText (path text : String) : Except Fault Settings :=
  ofFile Yaml.read? path text

end RubySig.Settings
