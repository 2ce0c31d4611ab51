import AppAtlas.Extract.Component
import AppAtlas.Extract.Page

/-! # Kinds of files

What kind of file a file is shows in its name and in its content. Some files look like several
kinds; then the first in the order of `claimOrder` counts: a data-access class may look like a
service, and a script that only declares tables is a schema.
-/

namespace AppAtlas.Extract

open Text (Pattern)

def controllerMark : Pattern :=
  .choice [
    .sequence [.word "@", .optional (.word "Rest"), .word "Controller", .edge],
    .sequence [.word "@RequestMapping", .edge],
    .sequence [.word "@",
      .choice [.word "Get", .word "Post", .word "Put", .word "Delete", .word "Patch"],
      .word "Mapping", .edge]]

def serviceMark : Pattern :=
  .sequence [.word "@", .choice [.word "Service", .word "Component", .word "Transactional"], .edge]

/-- The annotations of mappers, and the classes they build on. -/
def mapperMark : Pattern :=
  .choice [
    .sequence [.word "@", .choice [.word "Mapper", .word "Repository"], .edge],
    .sequence [.word "extends", .blanks1, .word "SqlSessionDaoSupport", .edge],
    .sequence [.edge, .word "SqlSessionTemplate", .edge]]

def createTableMark : Pattern :=
  .sequence [.edge, .anyCase "create", .blanks1,
    .many true (.seq (.many1 (.one Text.isWordChar)) .blanks1), .anyCase "table", .edge]

def firstWord (text : List Char) : String :=
  let isLetter (c : Char) := c.isAlpha
  String.ofList (Text.lower ((text.dropWhile fun c => !isLetter c).takeWhile isLetter))

def onlyDeclares (content : String) : Bool :=
  createTableMark.occursIn content.toList &&
    (Sql.Script.split content.toList).all fun s =>
      ["create", "alter", "drop", "comment", "set", "use", "grant"].contains (firstWord s.text)

def stemEndsIn (path : String) (endings : List String) : Bool :=
  endings.any fun e => (Text.stripEnd? e.toList (fileStem path).toList).isSome

def claims (kind : ArtifactKind) (path content : String) : Bool :=
  let isJava := hasExtension path ["java"]
  match kind with
  | .page => hasExtension path ["jsp", "jspx", "jspf", "html", "htm", "inc", "tag", "tagx"]
  | .mapper =>
    isJava && (mapperMark.occursIn content.toList ||
      stemEndsIn path ["Mapper", "Dao", "DAO", "DaoImpl", "Repository", "RepositoryImpl"])
  | .controller =>
    isJava && (controllerMark.occursIn content.toList || stemEndsIn path ["Controller", "Action"])
  | .service =>
    isJava && (serviceMark.occursIn content.toList ||
      stemEndsIn path ["Service", "ServiceImpl", "Manager", "ManagerImpl", "Facade"])
  | .schema =>
    hasExtension path ["ddl"] ||
      (if hasExtension path ["sql"] then onlyDeclares content
      else hasExtension path ["json", "csv", "tsv"] &&
        ["schema", "ddl", "columns"].any (holdsText (Text.lowerString path)))
  | .sql =>
    hasExtension path ["sql"] ||
      (hasExtension path ["xml"] && mapperPattern.occursIn content.toList)

def claimOrder : List ArtifactKind :=
  [.page, .mapper, .controller, .service, .schema, .sql]

def classify (path content : String) : Option ArtifactKind :=
  claimOrder.find? fun kind => claims kind path content

variable {κ : Type} [Confidence κ]

def findings (options : Options κ) (kind : ArtifactKind) (path content : String) : FindingSet κ :=
  match kind with
  | .page => pageFindings options path content
  | .controller => componentFindings options .controller path content
  | .service => componentFindings options .service path content
  | .mapper => componentFindings options .mapper path content
  | .sql => sqlFindings options path content
  | .schema => schemaFindings path content

end AppAtlas.Extract
