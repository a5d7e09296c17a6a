import FlexEtl.Table.ClickTableTheorems
import FlexEtl.Table.Cdb
import FlexEtl.Table.CdbTheorems
import FlexEtl.Db.Column
import FlexEtl.Db.ColumnTheorems
import FlexEtl.Json.Document
import FlexEtl.Json.Json2Click
import FlexEtl.Json.Json2ClickTheorems
import FlexEtl.Node.PipeSet
import FlexEtl.Db.FileLife
import FlexEtl.Db.FileLifeTheorems
import FlexEtl.Db.ColumnRows
import FlexEtl.Json.FileNames
import FlexEtl.Json.MemberOrder
import FlexEtl.Lib.Language
import FlexEtl.Table.FileImage
import FlexEtl.Table.LoadTheorems
import FlexEtl.Table.SaveFile
import FlexEtl.Node.Fanout
import FlexEtl.Node.FanoutTheorems
import FlexEtl.Node.Restart
import FlexEtl.Node.Watcher
import FlexEtl.Node.WatcherTheorems
import FlexEtl.Node.Startup
import FlexEtl.Node.StartupTheorems
import FlexEtl.Db.IntegerCells
import FlexEtl.Db.SendBlock
import FlexEtl.Db.UuidCells
import FlexEtl.Json.ReadLoop
import FlexEtl.Json.ReadLoopTheorems
import FlexEtl.Lib.Calls
import FlexEtl.Table.LoadCalls
import FlexEtl.Db.NullableColumn
import FlexEtl.Lib.Meter
import FlexEtl.Node.Backuper
import FlexEtl.Node.BackuperTheorems
import FlexEtl.Node.Config
import FlexEtl.Node.ConfigTheorems
import FlexEtl.Node.Metrics
import FlexEtl.Node.MetricsTheorems
import FlexEtl.Db.DateTimeCells
import FlexEtl.Db.DecimalCells
import FlexEtl.Db.EnumCells
import FlexEtl.Json.BlockSize
import FlexEtl.Lib.Traced
import FlexEtl.Table.ReadPoints
import FlexEtl.Json.NumberText
import FlexEtl.Json.IngestTheorems
import FlexEtl.Db.RowColumns
