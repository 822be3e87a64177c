import AstroAR.Separation
import AstroAR.Delivery
import AstroAR.ImportRace
import AstroAR.ImportOrder
import AstroAR.NestedImports
import AstroAR.TopLevel
import AstroAR.ImportTable
import AstroAR.Children
import AstroAR.Animations
import AstroAR.ScriptIsolation
import AstroAR.Publishing
import AstroAR.CollisionComplete
import AstroAR.BoxModel
import AstroAR.Pivot
import AstroAR.LogStack
import AstroAR.App
import AstroAR.LoadedScene
import AstroAR.KeyEnumerators
import AstroAR.EventCache
