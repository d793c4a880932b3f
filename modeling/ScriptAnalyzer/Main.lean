import ScriptAnalyzer.Command.Ask
import ScriptAnalyzer.Command.Check
import ScriptAnalyzer.Json.Reader
import ScriptAnalyzer.Server.Connection
import ScriptAnalyzer.Server.Frame

/-!
The program: `check` and `query` are commands on files, and `serve` is a server on the standard streams.
-/

namespace ScriptAnalyzer
namespace Program

def readFile (name : String) : IO (Except Command.ReadError Text) := do
  try
    let bytes ← IO.FS.readBinFile name
    match String.fromUTF8? bytes with
    | some text => return .ok text.toList
    | none => return .error .notUnicode
  catch e =>
    match e with
    | .noFileOrDirectory .. => return .error .notFound
    | .inappropriateType .. => return .error .isDirectory
    | e => return .error (.other (toString e))

/-- Runs a command after the files that it asks for have been read. -/
def runCommand (files : List String) (command : Command.FileReader → Command.Outcome) : IO UInt32 := do
  let contents ← files.mapM fun name => return (name, ← readFile name)
  let outcome := command fun name => (contents.lookup name).getD (.error .notFound)
  IO.print outcome.stdout
  IO.eprint outcome.stderr
  return outcome.exitCode.toUInt32

/-- Reads the header lines of a frame; none at the end of the input. -/
partial def readHeader (input : IO.FS.Stream) (h : Frame.Header) : IO (Option Frame.Header) := do
  match h with
  | .lines _ =>
    let line ← input.getLine
    if line.isEmpty then return none
    readHeader input (h.add line)
  | h => return some h

partial def readBytes (input : IO.FS.Stream) (size : Nat) (found : ByteArray) : IO ByteArray := do
  if found.size < size then
    let bytes ← input.read (size - found.size).toUSize
    if bytes.isEmpty then return found
    readBytes input size (found ++ bytes)
  else return found

/-- Reads a message; the outer option is none at the end of the input. -/
def readMessage (input : IO.FS.Stream) : IO (Option (Option Message)) := do
  match ← readHeader input (.lines none) with
  | none => return none
  | some (.complete size) =>
    let bytes ← readBytes input size ByteArray.empty
    return some ((String.fromUTF8? bytes).bind Json.parse? |>.bind Message.ofJson?)
  | some _ => return some none

partial def serve (session : Session) (c : Connection) : IO UInt32 := do
  let stdin ← IO.getStdin
  let stdout ← IO.getStdout
  if c.isOver then return c.exitCode.toUInt32
  match ← readMessage stdin with
  | none => return c.exitCode.toUInt32
  | some message =>
    let (replies, c) := Connection.receiveAll session c [message]
    for r in replies do stdout.putStr (Frame.encode r.toJson.compact)
    stdout.flush
    serve session c

def run (args : List String) : IO UInt32 :=
  match args with
  | "check" :: words =>
    let files := (Command.Check.ofWords words).toOption.elim [] (·.files)
    runCommand files fun read => Command.check read words
  | "query" :: words =>
    let files := (Command.Ask.ofWords words).toOption.elim [] fun q => [q.file]
    runCommand files fun read => Command.ask read words
  | "serve" :: _ => serve { coordinator := ⟨FrontEnd.ofProject {}, []⟩ } .waiting
  | _ => do
    IO.eprintln "usage: check FILE… | query FILE COMMAND LINE COLUMN | serve"
    return 2

end Program
end ScriptAnalyzer

def main (args : List String) : IO UInt32 := ScriptAnalyzer.Program.run args
