import Dcpp.HashStore
import Dcpp.SaveFile
import Dcpp.SimpleXML
import Dcpp.Util

namespace Dcpp.HashManager

open Disk SaveFile

def TTHValue.toBase32 (v : TTHValue) : Bytes := Encoder.toBase32 v.toList

namespace HashStore

/-- `config` is the directory of the settings. -/
def getIndexFile (config : Bytes) : Bytes := config ++ str "HashIndex.xml"

def getDataFile (config : Bytes) : Bytes := config ++ str "HashData.dat"

def treePieces (i : TTHValue × TreeInfo) : List Bytes :=
  [str "\t\t<Hash Type=\"TTH\" Index=\"", Util.toString i.2.index, str "\" BlockSize=\"", Util.toString i.2.blockSize,
    str "\" Size=\"", Util.toString i.2.size, str "\" Root=\"", TTHValue.toBase32 i.1, str "\"/>\r\n"]

def filePieces (dir : Bytes) (fi : FileInfo) : List Bytes :=
  [str "\t\t<File Name=\"", SimpleXML.escape (dir ++ fi.fileName) true, str "\" TimeStamp=\"",
    Util.toString fi.timeStamp, str "\" Root=\"", TTHValue.toBase32 fi.root, str "\"/>\r\n"]

/-- What `save` writes, piece by piece. -/
def indexPieces (s : HashStore) : List Bytes :=
  [SimpleXML.utf8Header, str "<HashStore Version=\"3\">\r\n", str "\t<Trees>\r\n"] ++ s.treeIndex.flatMap treePieces ++
    [str "\t</Trees>\r\n\t<Files>\r\n"] ++ s.fileIndex.flatMap (fun i => i.2.flatMap (filePieces i.1)) ++
    [str "\t</Files>\r\n</HashStore>"]

def save (device : Bytes → Nat) (bufSize : Nat) (config : Bytes) (s : HashStore) : FileM Bytes HashStore :=
  if s.dirty then
    FileM.handle
      (do
        saveFile device bufSize (getIndexFile config) (indexPieces s)
        return { s with dirty := false })
      (fun e => e = .file) (pure s)
  else pure s

end HashStore

end Dcpp.HashManager
