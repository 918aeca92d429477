import DistFs.Arguments
import DistFs.Joining
import DistFs.Session
/-!
# The program

One run of the program: a cluster is started over directories of the host, one command runs on it,
and the cluster stops again.
-/

namespace DistFs

structure Result where
  status : Nat
  output : Bytes := []
  errors : String := ""
  host : HostFiles

namespace Program

def versionText : String := "dfs 0.1.0\n"

def misuse : String := "error: invalid arguments\n\nFor more information, try '--help'.\n"

def bytesOf : Output → Bytes
  | .lines lines => (String.join (lines.map (· ++ "\n"))).toUTF8.toList
  | .bytes data => data
  | .nothing => []

def runCommand (command : Command) (c : Cluster) : Except Failure Output × Cluster :=
  match ({ cluster := c } : Session).startCommand command 0 with
  | (some (.printed output), s) => (.ok output, s.cluster)
  | (some (.failed f), s) => (.error f, s.cluster)
  | (_, s) => (.ok .nothing, s.cluster)

def runOn (host : HostFiles) (here : Spot) (config : ClusterConfig) (command : Command) :
    Except Failure Output × HostFiles :=
  match Cluster.launch host here config with
  | (.error f, host) => (.error f, host)
  | (.ok (c, members), _) =>
    let (result, c) := runCommand command c
    (result, (c.stopAll members).servers.host)

def run (host : HostFiles) (here : Spot) (args : List String) : Result :=
  match Invocation.parse args with
  | none => { status := 2, errors := misuse, host }
  | some .version => { status := 0, output := versionText.toUTF8.toList, host }
  | some (.help topic) => { status := 0, output := topic.text.toUTF8.toList, host }
  | some (.run command file storage) =>
    let failed (f : Failure) (host : HostFiles) : Result :=
      { status := 1, errors := f.report, host }
    match ClusterConfig.load host here file storage with
    | .error f => failed f host
    | .ok config =>
      match runOn host here config command with
      | (.ok output, host) => { status := 0, output := bytesOf output, host }
      | (.error f, host) => failed f host

end Program

end DistFs
